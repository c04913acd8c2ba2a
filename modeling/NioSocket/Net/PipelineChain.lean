import Mathlib.Data.List.Nodup
import Mathlib.Data.List.Range
import Mathlib.Data.List.Perm.Subperm
import NioSocket.Lib.Links
import NioSocket.Net.Pipeline

/-!
# The chain of a channel pipeline

`Chained`: the links of a pipeline lead from its head through the contexts that were added and not
removed, in the order they were added in, to its tail, and back; no two names on the way are the
same. What the calls do to such a chain: a search finds the first context that matches, the tail
last (`Chained.context0_eq`); an addition makes a new context the last (`Chained.append`), under a
name that is free (`Chained.filterName_eq`); a removal of the tail has undefined behaviour
(`Chained.remove_tail`), and any other takes out the first context that matches
(`Chained.remove_context`).
-/

namespace Nio.Net

namespace DefaultChannelPipeline

variable {cls : Classes} {p : DefaultChannelPipeline} {xs ys : List Nat} {l : List ChannelHandlerContext}
  {matching : ChannelHandlerContext → Bool} {c : Nat}

/-- The contexts `xs`, which are `l`, stand between the head and the tail. -/
structure Chained (cls : Classes) (p : DefaultChannelPipeline) (xs : List Nat) (l : List ChannelHandlerContext) :
    Prop where
  links : Ended p.next p.prev none (some head_) (head_ :: (xs ++ [tail_]))
  nodup : (head_ :: (xs ++ [tail_])).Nodup
  contexts : xs.map p.context = l.map some
  head : p.context head_ = some (headContext cls p.id)
  tail : p.context tail_ = some (tailContext cls p.id)
  made : ∀ c ∈ head_ :: (xs ++ [tail_]), c < p.nextContext
  /-- Any other context was deleted. -/
  live : ∀ c, (p.context c).isSome → c ∈ head_ :: (xs ++ [tail_])
  names : ((l ++ [tailContext cls p.id]).map (·.name_)).Nodup

theorem chained_new (cls : Classes) (id : Nat) : Chained cls (new cls id) [] [] where
  links := ⟨rfl, rfl, rfl, rfl, rfl⟩
  nodup := by decide
  contexts := rfl
  head := rfl
  tail := rfl
  made := show ∀ c ∈ head_ :: ([] ++ [tail_]), c < 2 by decide
  live := fun c hc => by
    by_cases ht : c = tail_
    · simp [ht]
    · by_cases hh : c = head_
      · simp [hh]
      · simp [new, ht, hh] at hc
  names := List.nodup_singleton _

namespace Chained

variable (C : Chained cls p xs l)

include C

theorem contexts_tail : (xs ++ [tail_]).map p.context = (l ++ [tailContext cls p.id]).map some := by
  rw [List.map_append, List.map_append, C.contexts]
  simp [C.tail]

theorem isSome (hc : c ∈ head_ :: (xs ++ [tail_])) : (p.context c).isSome := by
  rcases List.mem_cons.mp hc with rfl | hc
  · rw [C.head, Option.isSome_some]
  · have hm : p.context c ∈ (l ++ [tailContext cls p.id]).map some := by
      rw [← C.contexts_tail]
      exact List.mem_map_of_mem hc
    obtain ⟨ctx, -, h⟩ := List.mem_map.mp hm
    rw [← h, Option.isSome_some]

theorem length_eq : xs.length = l.length := by simpa using congrArg List.length C.contexts

/-- There are as many contexts as were made, at most. -/
theorem length_le : l.length + 2 ≤ p.nextContext := by
  have hs : (head_ :: (xs ++ [tail_])).Subperm (List.range p.nextContext) := by
    apply C.nodup.subperm
    intro c hc
    exact List.mem_range.mpr (C.made c hc)
  have hle := hs.length_le
  simp only [List.length_cons, List.length_append, List.length_nil, C.length_eq, List.length_range] at hle
  exact hle

omit C in
theorem nodup_tail (C : Chained cls p xs l) : xs.Nodup ∧ tail_ ∉ xs ∧ head_ ∉ xs := by
  have h := C.nodup
  simp only [List.nodup_cons, List.nodup_append, List.mem_append, List.mem_singleton] at h
  exact ⟨h.2.1, fun hc => h.2.2.2 _ hc _ rfl rfl, fun hc => h.1 (.inl hc)⟩

end Chained

/-! ## Searching -/

@[simp] theorem named_iff {name : String} {ctx : ChannelHandlerContext} : named name ctx ↔ ctx.name_ = name :=
  beq_iff_eq

@[simp] theorem handledBy_iff {handler : Option ChannelHandler} {ctx : ChannelHandlerContext} :
    handledBy handler ctx ↔ ctx.handler = handler := beq_iff_eq

theorem contextLoop_eq {q first : Option Nat} {fuel : Nat} (e : Ended p.next p.prev q first ys)
    (hs : ∀ c ∈ ys, (p.context c).isSome) (hf : ys.length < fuel) :
    contextLoop matching fuel first p = .ok (ys.find? fun c => (p.context c).any matching) p := by
  induction ys generalizing q first fuel with
  | nil =>
    obtain ⟨fuel, rfl⟩ : ∃ n, fuel = n + 1 := ⟨fuel - 1, by simp at hf; omega⟩
    obtain rfl : first = none := e
    rfl
  | cons c ys ih =>
    obtain ⟨fuel, rfl⟩ : ∃ n, fuel = n + 1 := ⟨fuel - 1, by simp at hf; omega⟩
    obtain ⟨rfl, -, h3⟩ := e
    obtain ⟨ctx, hctx⟩ := Option.isSome_iff_exists.mp (hs c (by simp))
    simp only [contextLoop, hctx, List.find?_cons, Option.any_some]
    cases matching ctx with
    | true => rfl
    | false =>
      apply ih h3
      · intro d hd
        exact hs d (List.mem_cons_of_mem _ hd)
      · simpa using hf

namespace Chained

theorem context0_eq (C : Chained cls p xs l) (matching : ChannelHandlerContext → Bool) :
    context0 matching p = .ok ((xs ++ [tail_]).find? fun c => (p.context c).any matching) p := by
  obtain ⟨-, -, h⟩ := C.links
  apply contextLoop_eq h
  · intro c hc
    exact C.isSome (List.mem_cons_of_mem _ hc)
  · have := C.length_le
    simp [C.length_eq]
    omega

/-- The context that is found is the first that matches. -/
theorem find_context (C : Chained cls p xs l) (matching : ChannelHandlerContext → Bool) :
    ((xs ++ [tail_]).find? fun c => (p.context c).any matching).map p.context =
      ((l ++ [tailContext cls p.id]).find? matching).map some := by
  have h := congrArg (List.find? (Option.any matching)) C.contexts_tail
  rwa [List.find?_map, List.find?_map] at h

theorem find_xs (C : Chained cls p xs l) (matching : ChannelHandlerContext → Bool) :
    (xs.find? fun c => (p.context c).any matching).map p.context = (l.find? matching).map some := by
  have h := congrArg (List.find? (Option.any matching)) C.contexts
  rwa [List.find?_map, List.find?_map] at h

theorem find_xs_eq_none (C : Chained cls p xs l) :
    xs.find? (fun c => (p.context c).any matching) = none ↔ ∀ ctx ∈ l, ¬matching ctx := by
  rw [← Option.map_eq_none_iff, C.find_xs, Option.map_eq_none_iff, List.find?_eq_none]

theorem find_eq_none (C : Chained cls p xs l) :
    (xs ++ [tail_]).find? (fun c => (p.context c).any matching) = none ↔
      ∀ ctx ∈ l ++ [tailContext cls p.id], ¬matching ctx := by
  rw [← Option.map_eq_none_iff, C.find_context, Option.map_eq_none_iff, List.find?_eq_none]

theorem erase_contexts (C : Chained cls p xs l) (matching : ChannelHandlerContext → Bool) :
    (xs.eraseP fun c => (p.context c).any matching).map p.context = (l.eraseP matching).map some := by
  have h := congrArg (List.eraseP (Option.any matching)) C.contexts
  rwa [List.eraseP_map, List.eraseP_map] at h

end Chained

/-! ## Adding -/

/-- A pipeline with a new context between `q` and the tail. -/
def appended (p : DefaultChannelPipeline) (ctx : ChannelHandlerContext) (q : Nat) : DefaultChannelPipeline :=
  { p with
    context := Function.update p.context p.nextContext (some ctx)
    next := Function.update (Function.update p.next p.nextContext (some tail_)) q (some p.nextContext)
    prev := Function.update (Function.update p.prev p.nextContext (some q)) tail_ (some p.nextContext)
    nextContext := p.nextContext + 1 }

namespace Chained

theorem ne_nextContext (C : Chained cls p xs l) : ∀ d ∈ head_ :: (xs ++ [tail_]), d ≠ p.nextContext :=
  fun d hd => (C.made d hd).ne

theorem append_eq (C : Chained cls p xs l) {ctx : ChannelHandlerContext} {q : Nat}
    (hq : q ∈ head_ :: (xs ++ [tail_])) (hqt : p.prev tail_ = some q) :
    (newContext ctx >>= addLast0) p = .ok () (appended p ctx q) := by
  have htm : tail_ ∈ head_ :: (xs ++ [tail_]) := by simp
  simp [Method.bind_apply, newContext, addLast0, setPrev, setNext, deref, hqt,
    Function.update_of_ne (C.ne_nextContext _ htm), Function.update_of_ne (C.ne_nextContext _ hq), C.isSome hq,
    C.isSome htm, appended]

/-- The new context is the last, if its name is free. -/
theorem appended (C : Chained cls p xs l) {ctx : ChannelHandlerContext} {q : Nat} (hq : q ∈ head_ :: xs)
    (hqt : p.prev tail_ = some q) (hn : ctx.name_ ∉ (l ++ [tailContext cls p.id]).map (·.name_)) :
    Chained cls (p.appended ctx q) (xs ++ [p.nextContext]) (l ++ [ctx]) := by
  have hx : p.nextContext ∉ head_ :: (xs ++ [tail_]) := fun h => C.ne_nextContext _ h rfl
  have htx : tail_ ≠ p.nextContext := C.ne_nextContext _ (by simp)
  have hhx : head_ ≠ p.nextContext := C.ne_nextContext _ (by simp)
  have hperm : (head_ :: (xs ++ [p.nextContext] ++ [tail_])).Perm (p.nextContext :: head_ :: (xs ++ [tail_])) := by
    rw [List.append_assoc]
    apply (List.Perm.cons head_ List.perm_middle).trans
    exact .swap ..
  refine ⟨?_, ?_, ?_, ?_, ?_, ?_, ?_, ?_⟩
  · rw [List.append_assoc]
    apply C.links.insert C.nodup hx hqt
    · intro z
      simp only [DefaultChannelPipeline.appended, Function.update_apply]
      by_cases hz : z = q
      · subst hz
        have hzx : z ≠ p.nextContext := by
          rintro rfl
          exact hx (List.mem_append_left [tail_] hq)
        simp [hzx]
      · simp [hz]
    · intro z
      simp only [DefaultChannelPipeline.appended, Function.update_apply]
      by_cases hz : z = tail_
      · subst hz
        simp [htx]
      · simp [hz]
  · exact hperm.nodup_iff.mpr (List.nodup_cons.mpr ⟨hx, C.nodup⟩)
  · rw [List.map_append, List.map_append, ← C.contexts]
    congr 1
    · apply List.map_congr_left
      intro d hd
      exact Function.update_of_ne (C.ne_nextContext d (by simp [hd])) ..
    · simp [DefaultChannelPipeline.appended]
  · exact (Function.update_of_ne hhx ..).trans C.head
  · exact (Function.update_of_ne htx ..).trans C.tail
  · intro d hd
    rcases List.mem_cons.mp (hperm.mem_iff.mp hd) with rfl | hd
    · exact Nat.lt_succ_self _
    · exact Nat.lt_succ_of_lt (C.made d hd)
  · intro d hd
    apply hperm.mem_iff.mpr
    by_cases hdx : d = p.nextContext
    · exact hdx ▸ List.mem_cons_self
    · simp only [DefaultChannelPipeline.appended, Function.update_of_ne hdx] at hd
      exact List.mem_cons_of_mem _ (C.live d hd)
  · have hp : (l ++ [ctx] ++ [tailContext cls p.id]).Perm (ctx :: (l ++ [tailContext cls p.id])) := by
      rw [List.append_assoc]
      exact List.perm_middle
    apply (hp.map _).nodup_iff.mpr
    exact List.nodup_cons.mpr ⟨hn, C.names⟩

/-- An addition makes a new context, which is the last from then on. -/
theorem append (C : Chained cls p xs l) {ctx : ChannelHandlerContext}
    (hn : ctx.name_ ∉ (l ++ [tailContext cls p.id]).map (·.name_)) :
    ∃ p', (newContext ctx >>= addLast0) p = .ok () p' ∧ p'.id = p.id ∧
      Chained cls p' (xs ++ [p.nextContext]) (l ++ [ctx]) := by
  obtain ⟨q, hq, hqt⟩ := C.links.exists_prev_last
  exact ⟨_, C.append_eq (List.mem_append_left [tail_] hq) hqt, rfl, C.appended hq hqt hn⟩

end Chained

/-! ## Removing -/

theorem eraseP_eq_erase {f : Nat → Bool} (h : xs.find? f = some c) : xs.eraseP f = xs.erase c := by
  induction xs with
  | nil => rfl
  | cons x xs ih =>
    by_cases hx : f x
    · rw [List.find?_cons_of_pos hx] at h
      cases h
      rw [List.eraseP_cons_of_pos hx, List.erase_cons_head]
    · rw [List.find?_cons_of_neg hx] at h
      have hxc : x ≠ c := by
        rintro rfl
        exact hx (List.find?_some h)
      rw [List.eraseP_cons_of_neg hx, List.erase_cons_tail (by simpa using hxc), ih h]

/-- A pipeline without the context `c`, which stands between `a` and `b`. -/
def without (p : DefaultChannelPipeline) (a c b : Nat) : DefaultChannelPipeline :=
  deleteContext c { p with
    next := Function.update p.next a (some b)
    prev := Function.update p.prev b (some a) }

namespace Chained

/-- The tail has no next context, and `remove0` dereferences it. -/
theorem remove_tail (C : Chained cls p xs l) : remove0 tail_ p = .ub := by
  obtain ⟨q, hq, hqt⟩ := C.links.exists_prev_last
  have hn : p.next tail_ = none := (show Ended _ _ _ _ (head_ :: xs ++ [tail_]) from C.links).next_last
  simp [remove0, Method.bind_apply, setNext, setPrev, hqt, hn, C.isSome (List.mem_append_left [tail_] hq), deref,
    Outcome.bind]

theorem neighbours (C : Chained cls p xs l) (hc : c ∈ xs) :
    ∃ a ∈ head_ :: (xs ++ [tail_]), ∃ b ∈ head_ :: (xs ++ [tail_]), p.prev c = some a ∧ p.next c = some b := by
  obtain ⟨-, -, h⟩ := C.links
  obtain ⟨b, hb, hcb⟩ := h.exists_next hc
  rcases C.links.prev_of_mem (List.mem_cons_of_mem _ (List.mem_append_left _ hc)) with ⟨hh, -⟩ | ⟨a, ha, hca⟩
  · exact absurd (Option.some_inj.mp hh ▸ hc) C.nodup_tail.2.2
  · exact ⟨a, ha, b, List.mem_cons_of_mem _ hb, hca, hcb⟩

theorem remove0_eq (C : Chained cls p xs l) {a b : Nat} (ha : a ∈ head_ :: (xs ++ [tail_]))
    (hb : b ∈ head_ :: (xs ++ [tail_])) (hca : p.prev c = some a) (hcb : p.next c = some b) :
    remove0 c p = .ok () (p.without a c b) := by
  simp [remove0, Method.bind_apply, setNext, setPrev, hca, hcb, deref, C.isSome ha, C.isSome hb, without]

theorem without (C : Chained cls p xs l) {a b : Nat} (hc : c ∈ xs) (hca : p.prev c = some a)
    (hcb : p.next c = some b) (h : xs.eraseP (fun c => (p.context c).any matching) = xs.erase c) :
    Chained cls (p.without a c b) (xs.erase c) (l.eraseP matching) := by
  obtain ⟨hxs, htx, hhx⟩ := C.nodup_tail
  have hch : c ≠ head_ := fun hh => hhx (hh ▸ hc)
  have hct : c ≠ tail_ := fun ht => htx (ht ▸ hc)
  have herase : head_ :: (xs.erase c ++ [tail_]) = (head_ :: (xs ++ [tail_])).erase c := by
    rw [List.erase_cons_tail (by simpa using hch.symm), List.erase_append_left _ hc]
  refine ⟨?_, ?_, ?_, ?_, ?_, ?_, ?_, ?_⟩
  · rw [herase]
    have hr : Ended (p.without a c b).next (p.without a c b).prev none
        (if some head_ = some c then p.next c else some head_) ((head_ :: (xs ++ [tail_])).erase c) := by
      apply C.links.remove (List.mem_cons_of_mem _ (List.mem_append_left _ hc)) C.nodup nofun
      · intro y hy
        simp only [DefaultChannelPipeline.without, deleteContext, Function.update_apply, hy, hca, hcb, if_false,
          Option.some_inj, eq_comm]
      · intro y hy
        simp only [DefaultChannelPipeline.without, deleteContext, Function.update_apply, hy, hca, hcb, if_false,
          Option.some_inj, eq_comm]
    rwa [if_neg (by simpa using hch.symm)] at hr
  · rw [herase]
    exact C.nodup.erase c
  · rw [← C.erase_contexts matching, h]
    apply List.map_congr_left
    intro d hd
    exact Function.update_of_ne (hxs.mem_erase_iff.mp hd).1 ..
  · exact (Function.update_of_ne hch.symm ..).trans C.head
  · exact (Function.update_of_ne hct.symm ..).trans C.tail
  · rw [herase]
    intro d hd
    exact C.made d (List.mem_of_mem_erase hd)
  · rw [herase]
    intro d hd
    have hdc : d ≠ c := by
      rintro rfl
      simp [DefaultChannelPipeline.without, deleteContext] at hd
    simp only [DefaultChannelPipeline.without, deleteContext, Function.update_of_ne hdc] at hd
    exact C.nodup.mem_erase_iff.mpr ⟨hdc, C.live d hd⟩
  · exact C.names.sublist (((List.eraseP_sublist ..).append_right _).map _)

/-- A removal of what some context before the tail matches takes out the first of them. -/
theorem remove_context (C : Chained cls p xs l) (hm : ∃ ctx ∈ l, matching ctx) :
    ∃ p', remove matching p = .ok () p' ∧ p'.id = p.id ∧ ∃ xs', Chained cls p' xs' (l.eraseP matching) := by
  have hf : xs.find? (fun c => (p.context c).any matching) ≠ none := by
    rw [Ne, C.find_xs_eq_none]
    intro hn
    obtain ⟨ctx, hctx, hm⟩ := hm
    exact hn ctx hctx hm
  obtain ⟨c, hc⟩ := Option.ne_none_iff_exists'.mp hf
  have hcx := List.mem_of_find?_eq_some hc
  obtain ⟨a, ha, b, hb, hca, hcb⟩ := C.neighbours hcx
  refine ⟨p.without a c b, ?_, rfl, xs.erase c, C.without hcx hca hcb (eraseP_eq_erase hc)⟩
  rw [remove, Method.bind_apply, C.context0_eq, List.find?_append, hc]
  exact C.remove0_eq ha hb hca hcb

/-- A removal of what nothing matches changes nothing. -/
theorem remove_absent (C : Chained cls p xs l) (hl : ∀ ctx ∈ l ++ [tailContext cls p.id], ¬matching ctx) :
    remove matching p = .ok () p := by
  rw [remove, Method.bind_apply, C.context0_eq, C.find_eq_none.mpr hl]
  rfl

/-- A removal of what only the tail matches has undefined behaviour. -/
theorem remove_only_tail (C : Chained cls p xs l) (hl : ∀ ctx ∈ l, ¬matching ctx)
    (ht : matching (tailContext cls p.id)) : remove matching p = .ub := by
  rw [remove, Method.bind_apply, C.context0_eq, List.find?_append, C.find_xs_eq_none.mpr hl, Option.none_or,
    List.find?_cons_of_pos]
  · exact C.remove_tail
  · simpa [C.tail] using ht

end Chained

end DefaultChannelPipeline

end Nio.Net
