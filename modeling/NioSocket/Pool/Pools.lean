import NioSocket.Pool.Elements
import NioSocket.Lib.Links

/-!
# The pools of an arena

The ring of each head has as members exactly the subpages of its element size that have
an element to give out (`Pools`), and at most one member none of whose elements is given
out. `init`, `allocate` and `free` of a subpage keep this, whatever they do to the
bitmap, and none of their assertions fails.
-/

namespace Nio.Pool

variable {l : Layout} {a a' : PoolArena} {s s' : PoolSubpage} {c i j n : Nat} {r p y : SubpageRef}

namespace PoolSubpage

/-- The subpage is to be in a pool. -/
def InPool (s : PoolSubpage) : Prop := s.doNotDestroy_ = true ∧ (s.elemSize_ = 0 ∨ 0 < s.numAvail_)

instance (s : PoolSubpage) : Decidable s.InPool := inferInstanceAs (Decidable (_ ∧ _))

/-- No element of the subpage is given out, or it has none. -/
def Idle (s : PoolSubpage) : Prop := s.elemSize_ = 0 ∨ s.numAvail_ = s.maxNumElems_

/-- The subpage is made for page `i` of chunk `c`. -/
structure Based (l : Layout) (c i : Nat) (s : PoolSubpage) : Prop where
  chunk_ : s.chunk_ = c
  memoryMapIdx_ : s.memoryMapIdx_ = 2 ^ l.maxOrder + i
  pageSize_ : s.pageSize_ = l.pageSize

/-- Subpage `i` of chunk `c`. -/
structure Page (l : Layout) (c i : Nat) (s : PoolSubpage) : Prop extends s.Based l c i where
  elemSize_ : SizeClass l s.elemSize_
  elems : s.elemSize_ ≠ 0 → s.Elems

end PoolSubpage

namespace PoolArena

/-- The head of the pool a subpage is in. -/
def poolOf (a : PoolArena) : SubpageRef → Option SubpageRef
  | .page c i =>
    match a.subpages c i with
    | some s => if s.InPool then some (headOf s.elemSize_) else none
    | none => none
  | _ => none

/-- The pools, and the subpages in them. -/
structure Pools (l : Layout) (a : PoolArena) : Prop where
  page : ∀ c i s, a.subpages c i = some s → s.Page l c i
  rings : Rings a.next_ a.prev_ (IsHead l) a.poolOf
  idle : ∀ c i s c' i' s', a.subpages c i = some s → a.subpages c' i' = some s' → s.InPool → s'.InPool →
    s.elemSize_ = s'.elemSize_ → s.Idle → s'.Idle → c = c' ∧ i = i'

/-- The arena with other links. -/
def relink (a : PoolArena) (next prev : SubpageRef → Option SubpageRef) : PoolArena :=
  { a with next_ := next, prev_ := prev }

theorem alive_relink {next prev : SubpageRef → Option SubpageRef} : (a.relink next prev).Alive r ↔ a.Alive r := by
  cases r <;> exact Iff.rfl

@[simp] theorem poolOf_relink (next prev : SubpageRef → Option SubpageRef) : (a.relink next prev).poolOf = a.poolOf := by
  funext r
  cases r <;> rfl

theorem setSubpage_self (h : a.subpages c i = some s) : a.setSubpage c i s = a := by
  rw [setSubpage, ← h, Function.update_eq_self, Function.update_eq_self]

theorem subpages_setSubpage : (a.setSubpage c i s).subpages c i = some s := by
  simp [setSubpage]

theorem subpages_setSubpage_of_ne {c' i' : Nat} (h : ¬(c' = c ∧ i' = i)) :
    (a.setSubpage c i s).subpages c' i' = a.subpages c' i' := by
  unfold setSubpage
  by_cases hc : c' = c
  · subst hc
    have hi : i' ≠ i := fun e => h ⟨rfl, e⟩
    simp [hi]
  · simp [hc]

@[simp] theorem setSubpage_setSubpage : (a.setSubpage c i s).setSubpage c i s' = a.setSubpage c i s' := by
  simp [setSubpage]

theorem poolOf_setSubpage : (a.setSubpage c i s).poolOf =
    Function.update a.poolOf (.page c i) (if s.InPool then some (headOf s.elemSize_) else none) := by
  funext r
  cases r with
  | tiny | small => rfl
  | page c' i' =>
    by_cases h : c' = c ∧ i' = i
    · obtain ⟨rfl, rfl⟩ := h
      rw [Function.update_self, poolOf, subpages_setSubpage]
    · rw [Function.update_of_ne, poolOf, subpages_setSubpage_of_ne h]
      · rfl
      · rintro ⟨⟩
        exact h ⟨rfl, rfl⟩

theorem alive_setSubpage (h : a.Alive r) : (a.setSubpage c i s).Alive r := by
  cases r with
  | tiny | small => exact h
  | page c' i' =>
    show (a.setSubpage c i s).subpages c' i' ≠ none
    by_cases hci : c' = c ∧ i' = i
    · obtain ⟨rfl, rfl⟩ := hci
      simp [subpages_setSubpage]
    · rw [subpages_setSubpage_of_ne hci]
      exact h

theorem poolOf_page (h : a.subpages c i = some s) :
    a.poolOf (.page c i) = if s.InPool then some (headOf s.elemSize_) else none := by
  rw [poolOf, h]

/-- What is in a pool is a subpage. -/
theorem exists_of_poolOf (h : a.poolOf r = some p) : ∃ c i s, r = .page c i ∧ a.subpages c i = some s ∧ s.InPool ∧
    headOf s.elemSize_ = p := by
  cases r with
  | tiny | small => cases h
  | page c i =>
    cases hs : a.subpages c i with
    | none =>
      rw [poolOf, hs] at h
      cases h
    | some s =>
      rw [poolOf_page hs] at h
      split at h
      · exact ⟨c, i, s, rfl, hs, ‹_›, Option.some_inj.mp h⟩
      · cases h

theorem alive_of_poolOf (h : a.poolOf r = some p) : a.Alive r := by
  obtain ⟨c, i, s, rfl, hs, -⟩ := exists_of_poolOf h
  show a.subpages c i ≠ none
  simp [hs]

/-! ## Linking and unlinking -/

@[simp] theorem next_relink (next prev : SubpageRef → Option SubpageRef) : (a.relink next prev).next_ = next := rfl
@[simp] theorem prev_relink (next prev : SubpageRef → Option SubpageRef) : (a.relink next prev).prev_ = prev := rfl

variable {next prev : SubpageRef → Option SubpageRef}

theorem deref_ok (h : a.Alive r) : deref (some r) (a.relink next prev) = .ok r (a.relink next prev) :=
  if_pos (alive_relink.mpr h)

theorem setNext_ok (h : a.Alive r) (v : Option SubpageRef) :
    setNext (some r) v (a.relink next prev) = .ok () (a.relink (Function.update next r v) prev) := by
  rw [setNext, Method.bind_apply, deref_ok h]
  rfl

theorem setPrev_ok (h : a.Alive r) (v : Option SubpageRef) :
    setPrev (some r) v (a.relink next prev) = .ok () (a.relink next (Function.update prev r v)) := by
  rw [setPrev, Method.bind_apply, deref_ok h]
  rfl

end PoolArena

namespace PoolSubpage

open PoolArena

/-- `addToPool` links the subpage in behind the head. -/
theorem addToPool_ok {this head : SubpageRef} (h : a.Alive this) (hh : a.Alive head) (hy : a.Alive y)
    (hyt : y ≠ this) (hn : a.next_ this = none) (hp : a.prev_ this = none) (hf : a.next_ head = some y) :
    addToPool this head a =
      .ok () (a.relink (Function.update (Function.update a.next_ this (some y)) head (some this))
        (Function.update (Function.update a.prev_ this (some head)) y (some this))) := by
  show addToPool this head (a.relink a.next_ a.prev_) = _
  have hnone : a.prev_ this = none ∧ a.next_ this = none := ⟨hp, hn⟩
  simp only [addToPool, Method.bind_apply, Method.get_apply, Outcome.bind_ok, next_relink, prev_relink,
    assert_ok hnone, setPrev_ok h, hf, setNext_ok h, Function.update_self, setPrev_ok hy,
    Function.update_of_ne hyt.symm, setNext_ok hh]


/-- `removeFromPool` links what is around the subpage to each other. -/
theorem removeFromPool_ok {this : SubpageRef} {p n : SubpageRef} (h : a.Alive this) (hpa : a.Alive p) (hna : a.Alive n)
    (hpt : p ≠ this) (hp : a.prev_ this = some p) (hn : a.next_ this = some n) :
    removeFromPool this a =
      .ok () (a.relink (Function.update (Function.update a.next_ p (some n)) this none)
        (Function.update (Function.update a.prev_ n (some p)) this none)) := by
  show removeFromPool this (a.relink a.next_ a.prev_) = _
  have hne : some p ≠ none ∧ some n ≠ none := by simp
  simp only [removeFromPool, Method.bind_apply, Method.get_apply, Outcome.bind_ok, next_relink, prev_relink,
    assert_ok hne, hp, hn, setNext_ok hpa, Function.update_of_ne hpt.symm, setPrev_ok hna, setNext_ok h, setPrev_ok h]

end PoolSubpage

namespace PoolArena

theorem Laid.setSubpage (h : a.Laid l) : (a.setSubpage c i s).Laid l := { h with }

theorem Laid.relink (h : a.Laid l) : (a.relink next prev).Laid l := { h with }

namespace Pools

variable (P : a.Pools l)
include P

/-- One subpage changes, and is linked accordingly. -/
theorem set (hp : s.Page l c i) (R : Rings next prev (IsHead l) (a.setSubpage c i s).poolOf)
    (hi : s.InPool → s.Idle → ∀ c' i' s', ¬(c' = c ∧ i' = i) → a.subpages c' i' = some s' → s'.InPool →
      s'.elemSize_ = s.elemSize_ → ¬s'.Idle) : ((a.setSubpage c i s).relink next prev).Pools l := by
  have other : ∀ c' i' s', ¬(c' = c ∧ i' = i) → (a.setSubpage c i s).subpages c' i' = some s' →
      a.subpages c' i' = some s' := fun c' i' s' hne h => (subpages_setSubpage_of_ne hne).symm.trans h
  have self : ∀ {s'}, (a.setSubpage c i s).subpages c i = some s' → s' = s := fun h =>
    Option.some_inj.mp (h.symm.trans subpages_setSubpage)
  refine ⟨fun c' i' s' h => ?_, (poolOf_relink next prev).symm ▸ R, fun c₁ i₁ s₁ c₂ i₂ s₂ h1 h2 p1 p2 he d1 d2 => ?_⟩
  · by_cases hci : c' = c ∧ i' = i
    · obtain ⟨rfl, rfl⟩ := hci
      exact self h ▸ hp
    · exact P.page c' i' s' (other _ _ _ hci h)
  · by_cases hc1 : c₁ = c ∧ i₁ = i <;> by_cases hc2 : c₂ = c ∧ i₂ = i
    · exact ⟨hc1.1.trans hc2.1.symm, hc1.2.trans hc2.2.symm⟩
    · obtain ⟨rfl, rfl⟩ := hc1
      obtain rfl := self h1
      exact absurd d2 (hi p1 d1 c₂ i₂ s₂ hc2 (other _ _ _ hc2 h2) p2 he.symm)
    · obtain ⟨rfl, rfl⟩ := hc2
      obtain rfl := self h2
      exact absurd d1 (hi p2 d2 c₁ i₁ s₁ hc1 (other _ _ _ hc1 h1) p1 he)
    · exact P.idle c₁ i₁ s₁ c₂ i₂ s₂ (other _ _ _ hc1 h1) (other _ _ _ hc2 h2) p1 p2 he d1 d2

/-- A subpage that stays in its pool, or out of all. -/
theorem keep (hp : s.Page l c i) (he : a.poolOf (.page c i) = if s.InPool then some (headOf s.elemSize_) else none)
    (hi : s.InPool → s.Idle → ∀ c' i' s', ¬(c' = c ∧ i' = i) → a.subpages c' i' = some s' → s'.InPool →
      s'.elemSize_ = s.elemSize_ → ¬s'.Idle) : (a.setSubpage c i s).Pools l := by
  show ((a.setSubpage c i s).relink a.next_ a.prev_).Pools l
  refine P.set hp ?_ hi
  rw [poolOf_setSubpage, ← he, Function.update_eq_self]
  exact P.rings

variable (H : a.Laid l)
include H

theorem addToPool (hn : a.poolOf (.page c i) = none) (hp : s.Page l c i) (hin : s.InPool)
    (hi : s.Idle → ∀ c' i' s', ¬(c' = c ∧ i' = i) → a.subpages c' i' = some s' → s'.InPool →
      s'.elemSize_ = s.elemSize_ → ¬s'.Idle) :
    ∃ next prev, PoolSubpage.addToPool (.page c i) (headOf s.elemSize_) (a.setSubpage c i s) =
      .ok () ((a.setSubpage c i s).relink next prev) ∧ ((a.setSubpage c i s).relink next prev).Pools l := by
  have hh := headOf_isHead hp.elemSize_
  obtain ⟨y, hf, hy, -⟩ := P.rings.next_head hh
  obtain ⟨hnext, hprev⟩ := P.rings.null (.page c i) id hn
  have hya : a.Alive y := by
    rcases hy with rfl | hy
    · exact H.alive_head hh
    · exact alive_of_poolOf hy
  have hyt : y ≠ .page c i := by
    rintro rfl
    rcases hy with hy | hy
    · rw [← hy] at hh
      exact hh
    · rw [hn] at hy
      cases hy
  refine ⟨_, _, PoolSubpage.addToPool_ok (a := a.setSubpage c i s) ?_ (alive_setSubpage (H.alive_head hh))
    (alive_setSubpage hya) hyt hnext hprev hf, P.set hp ?_ fun _ => hi⟩
  · show (a.setSubpage c i s).subpages c i ≠ none
    simp [subpages_setSubpage]
  · rw [poolOf_setSubpage, if_pos hin]
    exact P.rings.link hh id hn hf

theorem removeFromPool {h : SubpageRef} (hn : a.poolOf (.page c i) = some h) (hp : s.Page l c i) (hin : ¬s.InPool) :
    ∃ next prev, PoolSubpage.removeFromPool (.page c i) (a.setSubpage c i s) =
      .ok () ((a.setSubpage c i s).relink next prev) ∧ ((a.setSubpage c i s).relink next prev).Pools l := by
  obtain ⟨p, n, hprev, hnext, hpt, -, hpp, hnp⟩ := P.rings.links_of hn
  have alive : ∀ q, (q = h ∨ a.poolOf q = some h) → a.Alive q := by
    rintro q (rfl | hq)
    · exact H.alive_head (P.rings.head_of _ _ hn)
    · exact alive_of_poolOf hq
  refine ⟨_, _, PoolSubpage.removeFromPool_ok (a := a.setSubpage c i s) ?_ (alive_setSubpage (alive p hpp))
    (alive_setSubpage (alive n hnp)) hpt hprev hnext, P.set hp ?_ fun h => absurd h hin⟩
  · show (a.setSubpage c i s).subpages c i ≠ none
    simp [subpages_setSubpage]
  · rw [poolOf_setSubpage, if_neg hin]
    exact P.rings.unlink hn hprev hnext

end Pools

theorem onSubpage_ok {α : Type} {m : Method PoolSubpage α} {x : α} (hm : m s = .ok x s') :
    onSubpage c i m (a.setSubpage c i s) = .ok x (a.setSubpage c i s') := by
  rw [onSubpage, subpages_setSubpage]
  simp only [hm, setSubpage_setSubpage]

theorem subpageAt_ok (h : a.subpages c i = some s) : subpageAt c i a = .ok s a := by
  rw [subpageAt, h]

end PoolArena

/-! ## What the subpages do -/

namespace PoolSubpage

theorem Based.initElems (h : s.Based l c i) (hn : SizeClass l n) :
    (s.initElems n).Page l c i ∧ (s.initElems n).InPool ∧ (s.initElems n).elemSize_ = n := by
  obtain ⟨hc, hm, hp⟩ := h
  by_cases h0 : n = 0
  · subst h0
    exact ⟨⟨⟨hc, hm, hp⟩, hn, fun hne => absurd rfl hne⟩, ⟨rfl, .inl rfl⟩, rfl⟩
  · obtain ⟨hE, hav, -⟩ := initElems_elems hn h0 hp
    have hpos : 0 < s.pageSize_ / n := by
      have := hn.two_mul_le
      exact Nat.div_pos (by omega) (by omega)
    rw [initElems_of_ne h0] at hE hav ⊢
    exact ⟨⟨⟨hc, hm, hp⟩, hn, fun _ => hE⟩, ⟨rfl, .inr hpos⟩, rfl⟩

theorem Page.take (h : s.Page l c i) (h0 : s.elemSize_ ≠ 0) (hj : j ∈ s.clear) : (s.take j).Page l c i :=
  { h with elems := fun _ => (h.elems h0).take hj }

theorem Page.give (h : s.Page l c i) (h0 : s.elemSize_ ≠ 0) (hj : j < s.maxNumElems_) (hb : s.bit j = true) :
    (s.give j).Page l c i :=
  { h with elems := fun _ => (h.elems h0).give hj hb }

/-- A page has room for two elements at least. -/
theorem Page.two_le (h : s.Page l c i) (h0 : s.elemSize_ ≠ 0) : 2 ≤ s.maxNumElems_ := by
  rw [(h.elems h0).maxNumElems_, h.pageSize_, Nat.le_div_iff_mul_le (Nat.pos_of_ne_zero h0)]
  exact h.elemSize_.two_mul_le

end PoolSubpage

namespace PoolArena.Pools

variable (P : a.Pools l) (H : a.Laid l)
include P H

/-- `init` of a subpage that is in no pool, while the pool of its size is empty. -/
theorem init (hb : s.Based l c i) (hp : a.poolOf (.page c i) = none) (hn : SizeClass l n)
    (he : ∀ r, a.poolOf r ≠ some (headOf n)) :
    ∃ next prev, PoolSubpage.init c i (headOf n) n (a.setSubpage c i s) =
      .ok () ((a.setSubpage c i (s.initElems n)).relink next prev) ∧
      ((a.setSubpage c i (s.initElems n)).relink next prev).Pools l := by
  obtain ⟨hpage, hin, hsz⟩ := hb.initElems hn
  have key := P.addToPool H hp hpage hin fun _ c' i' s' _ hs' hin' hsz' _ => by
    refine he (.page c' i') ?_
    rw [poolOf_page hs', if_pos hin', hsz', hsz]
  rw [hsz] at key
  have e : onSubpage c i (.modify fun s => s.initElems n) (a.setSubpage c i s) =
      .ok () (a.setSubpage c i (s.initElems n)) := onSubpage_ok rfl
  rw [PoolSubpage.init, Method.bind_apply, e]
  exact key

/-- `allocate` gives out an element of a subpage that is in a pool. -/
theorem allocate (hs : a.subpages c i = some s) (hin : s.InPool) :
    ∃ j s' next prev, PoolSubpage.allocate c i a = .ok (s.toHandle j) ((a.setSubpage c i s').relink next prev) ∧
      ((a.setSubpage c i s').relink next prev).Pools l ∧
      (s.elemSize_ = 0 ∧ j = 0 ∧ s' = s ∨ s.elemSize_ ≠ 0 ∧ j ∈ s.clear ∧ s' = s.take j) := by
  have hp := P.page c i s hs
  have hself := setSubpage_self hs
  simp only [PoolSubpage.allocate, Method.bind_apply, subpageAt_ok hs, Outcome.bind_ok]
  by_cases h0 : s.elemSize_ = 0
  · refine ⟨0, s, a.next_, a.prev_, ?_, ?_, .inl ⟨h0, rfl, rfl⟩⟩
    · rw [if_pos h0, hself]
      rfl
    · rw [hself]
      exact P
  have hpos : 0 < s.numAvail_ := hin.2.resolve_left h0
  have hE := hp.elems h0
  obtain ⟨j, hj, htake⟩ := hE.takeNext hpos
  have e : onSubpage c i PoolSubpage.takeNext a = .ok j (a.setSubpage c i (s.take j)) := by
    have := onSubpage_ok (a := a) (c := c) (i := i) htake
    rwa [hself] at this
  have hnot : ¬(s.numAvail_ = 0 ∨ ¬s.doNotDestroy_ = true) := by
    rw [hin.1]
    simp only [not_true_eq_false, or_false]
    omega
  have hpool : a.poolOf (.page c i) = some (headOf s.elemSize_) := by rw [poolOf_page hs, if_pos hin]
  rw [if_neg h0, if_neg hnot]
  simp only [Method.bind_apply, e, Outcome.bind_ok, subpageAt_ok subpages_setSubpage]
  by_cases hlast : s.numAvail_ - 1 = 0
  · -- the last one: the subpage leaves its pool
    have hout : ¬(s.take j).InPool := by
      rintro ⟨-, h | h⟩
      · exact h0 h
      · have : (s.take j).numAvail_ = s.numAvail_ - 1 := rfl
        omega
    obtain ⟨next, prev, er, hP⟩ := P.removeFromPool H hpool (hp.take h0 hj) hout
    refine ⟨j, s.take j, next, prev, ?_, hP, .inr ⟨h0, hj, rfl⟩⟩
    rw [if_pos (show (s.take j).numAvail_ = 0 from hlast), Method.bind_apply, er]
    rfl
  · have hstay : (s.take j).InPool := ⟨hin.1, .inr (Nat.pos_of_ne_zero hlast)⟩
    refine ⟨j, s.take j, a.next_, a.prev_, ?_, ?_, .inr ⟨h0, hj, rfl⟩⟩
    · rw [if_neg (show ¬(s.take j).numAvail_ = 0 from hlast)]
      rfl
    · refine P.keep (hp.take h0 hj) (by rw [hpool, if_pos hstay]; rfl) fun _ hidle => ?_
      have hle := hE.numAvail_le
      rcases hidle with h | h
      · exact absurd h h0
      · have h : s.numAvail_ - 1 = s.maxNumElems_ := h
        omega

/-- `free` takes back an element that was given out, and tells the chunk when to take back the page. -/
theorem free (hs : a.subpages c i = some s) (hd : s.doNotDestroy_ = true)
    (hj : s.elemSize_ = 0 ∨ j < s.maxNumElems_ ∧ s.bit j = true) :
    ∃ b s' next prev, PoolSubpage.free c i (headOf s.elemSize_) j a =
        .ok b ((a.setSubpage c i s').relink next prev) ∧
      ((a.setSubpage c i s').relink next prev).Pools l ∧
      (b = true ∧ s.elemSize_ = 0 ∧ s' = s ∨ b = true ∧ s.elemSize_ ≠ 0 ∧ s' = s.give j ∨
        b = false ∧ s.elemSize_ ≠ 0 ∧ s' = { s.give j with doNotDestroy_ := false } ∧ (s.give j).Idle) := by
  have hp := P.page c i s hs
  have hself := setSubpage_self hs
  simp only [PoolSubpage.free, Method.bind_apply, subpageAt_ok hs, Outcome.bind_ok]
  by_cases h0 : s.elemSize_ = 0
  · refine ⟨true, s, a.next_, a.prev_, ?_, ?_, .inl ⟨rfl, h0, rfl⟩⟩
    · rw [if_pos h0, hself]
      rfl
    · rw [hself]
      exact P
  obtain ⟨hlt, hb⟩ := hj.resolve_left h0
  have hE := hp.elems h0
  have hg := hp.give h0 hlt hb
  have hgn : (s.give j).numAvail_ = s.numAvail_ + 1 := rfl
  have hgin : (s.give j).InPool := ⟨hd, .inr (by omega)⟩
  have e : onSubpage c i (PoolSubpage.giveBack j) a = .ok () (a.setSubpage c i (s.give j)) := by
    have := onSubpage_ok (a := a) (c := c) (i := i) (hE.giveBack hlt hb)
    rwa [hself] at this
  rw [if_neg h0]
  simp only [Method.bind_apply, e, Outcome.bind_ok]
  by_cases hz : s.numAvail_ = 0
  · -- it had none to give out: it comes back to its pool
    have hpool : a.poolOf (.page c i) = none := by
      rw [poolOf_page hs, if_neg]
      rintro ⟨-, h | h⟩
      · exact h0 h
      · omega
    have h2 := hp.two_le h0
    obtain ⟨next, prev, ea, hP⟩ := P.addToPool H hpool hg hgin fun hidle => by
      rcases hidle with h | h
      · exact absurd h h0
      · have h : s.numAvail_ + 1 = s.maxNumElems_ := h
        omega
    refine ⟨true, s.give j, next, prev, ?_, hP, .inr (.inl ⟨rfl, h0, rfl⟩)⟩
    have ea : PoolSubpage.addToPool (.page c i) (headOf s.elemSize_) (a.setSubpage c i (s.give j)) = _ := ea
    rw [if_pos hz, Method.bind_apply, ea]
    rfl
  have hin : s.InPool := ⟨hd, .inr (Nat.pos_of_ne_zero hz)⟩
  have hpool : a.poolOf (.page c i) = some (headOf s.elemSize_) := by rw [poolOf_page hs, if_pos hin]
  have hkeep : a.poolOf (.page c i) = if (s.give j).InPool then some (headOf (s.give j).elemSize_) else none := by
    rw [hpool, if_pos hgin]
    rfl
  rw [if_neg hz]
  by_cases hm : s.numAvail_ + 1 = s.maxNumElems_
  · have hiff := P.rings.prev_eq_next_iff hpool
    rw [if_neg (not_not.mpr hm)]
    simp only [Method.bind_apply, Method.get_apply, Outcome.bind_ok]
    by_cases hone : a.prev_ (.page c i) = a.next_ (.page c i)
    · -- the only member of its pool stays
      refine ⟨true, s.give j, a.next_, a.prev_, ?_, ?_, .inr (.inl ⟨rfl, h0, rfl⟩)⟩
      · have h1 : (a.setSubpage c i (s.give j)).prev_ (.page c i) = (a.setSubpage c i (s.give j)).next_ (.page c i) := hone
        rw [if_pos h1]
        rfl
      · refine P.keep hg hkeep fun _ _ c' i' s' hne hs' hin' hsz => ?_
        have := hiff.mp hone (.page c' i') (by rw [poolOf_page hs', if_pos hin', hsz]; rfl)
        rw [SubpageRef.page.injEq] at this
        exact absurd this hne
    · have h1 : ¬(a.setSubpage c i (s.give j)).prev_ (.page c i) = (a.setSubpage c i (s.give j)).next_ (.page c i) := hone
      have hout : ¬({ s.give j with doNotDestroy_ := false } : PoolSubpage).InPool := fun h => by
        cases h.1
      have hq : ({ s.give j with doNotDestroy_ := false } : PoolSubpage).Page l c i :=
        { hg with elems := fun h => { hg.elems h with } }
      obtain ⟨next, prev, er, hP⟩ := P.removeFromPool H hpool hq hout
      have e2 : onSubpage c i (.modify fun s : PoolSubpage => { s with doNotDestroy_ := false })
          (a.setSubpage c i (s.give j)) = .ok () (a.setSubpage c i { s.give j with doNotDestroy_ := false }) :=
        onSubpage_ok rfl
      refine ⟨false, _, next, prev, ?_, hP, .inr (.inr ⟨rfl, h0, rfl, .inr hm⟩)⟩
      rw [if_neg h1]
      simp only [Method.bind_apply, e2, Outcome.bind_ok, er]
      rfl
  · refine ⟨true, s.give j, a.next_, a.prev_, ?_, ?_, .inr (.inl ⟨rfl, h0, rfl⟩)⟩
    · rw [if_pos hm]
      rfl
    · refine P.keep hg hkeep fun _ hidle => ?_
      rcases hidle with h | h
      · exact absurd h h0
      · exact absurd h hm

end PoolArena.Pools

end Nio.Pool
