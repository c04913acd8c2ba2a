import Mathlib.Data.List.Induction
import NioSocket.Lib.Trans
import NioSocket.Net.PipelineNames

/-!
# Calls on a channel pipeline

Every run of calls on a new pipeline, with any names and handlers, and any names that the threads
which call it have in their caches. `Files` says what the contexts of a pipeline are for: an addition
files a handler behind the others, under a name that no other has, and a removal takes the first that
is meant. `chain_kept_iff`: the chain of the pipeline is that list after every call, if and only if
no removal is of the tail, and no handler without a name is null.
-/

namespace Nio.Net

namespace DefaultChannelPipeline

/-- The public member functions that add, remove and look up. -/
inductive Call
  | addLast (name : String) (handler : Option ChannelHandler)
  | removeNamed (name : String)
  | removeHandler (handler : Option ChannelHandler)
  | get (name : String)
  | contextNamed (name : String)
  | contextOf (handler : Option ChannelHandler)

open Called (onPipeline) in
/-- A call, but for what it returns. -/
def Call.run (cls : Classes) : Call → Method Called Unit
  | addLast name handler => Called.addLast cls name handler
  | removeNamed name => onPipeline (remove (named name))
  | removeHandler handler => onPipeline (remove (handledBy handler))
  | get name => onPipeline do let _ ← DefaultChannelPipeline.get name
  | contextNamed name => onPipeline do let _ ← context0 (named name)
  | contextOf handler => onPipeline do let _ ← context0 (handledBy handler)

/-- How a call leaves the pipeline and the cache, if it returns or throws. -/
def left : Outcome Called Unit → Option Called
  | .ok _ s | .throw _ s => some s
  | .ub | .hang => none

/-- A call, and what the thread that makes it has in its cache. -/
abbrev CallOn := Option (String → Option String) × Call

def Step (cls : Classes) (p : DefaultChannelPipeline) (e : CallOn) (p' : DefaultChannelPipeline) : Prop :=
  (left (e.2.run cls ⟨e.1, p⟩)).map (·.pipeline) = some p'

/-- What the calls are for: from the contexts `l` to those that `l'` are, in the order of addition. -/
inductive Files (cls : Classes) (id : Nat) : List ChannelHandlerContext → Call → List ChannelHandlerContext → Prop
  | added {name : String} {handler : Option ChannelHandler} {l : List ChannelHandlerContext} :
      name ≠ "" → name ∉ takenNames cls id l → Files cls id l (.addLast name handler) (l ++ [.new cls name handler])
  | unnamed {name : String} {handler : Option ChannelHandler} {l : List ChannelHandlerContext} :
      name ∉ takenNames cls id l → Files cls id l (.addLast "" handler) (l ++ [.new cls name handler])
  | duplicate {name : String} {handler : Option ChannelHandler} {l : List ChannelHandlerContext} :
      name ≠ "" → name ∈ takenNames cls id l → Files cls id l (.addLast name handler) l
  | removeNamed (name : String) (l : List ChannelHandlerContext) :
      Files cls id l (.removeNamed name) (l.eraseP (named name))
  | removeHandler (handler : Option ChannelHandler) (l : List ChannelHandlerContext) :
      Files cls id l (.removeHandler handler) (l.eraseP (handledBy handler))
  | get (name : String) (l : List ChannelHandlerContext) : Files cls id l (.get name) l
  | contextNamed (name : String) (l : List ChannelHandlerContext) : Files cls id l (.contextNamed name) l
  | contextOf (handler : Option ChannelHandler) (l : List ChannelHandlerContext) : Files cls id l (.contextOf handler) l

/-- The pipeline holds the contexts `l`, and goes by them. -/
structure Holds (cls : Classes) (p : DefaultChannelPipeline) (l : List ChannelHandlerContext) : Prop where
  /-- From the head to the tail, and back. -/
  chain : ∃ xs, Ended p.next p.prev none (some head_) (head_ :: (xs ++ [tail_])) ∧
    (head_ :: (xs ++ [tail_])).Nodup ∧ xs.map p.context = l.map some
  sentinels : p.context head_ = some (headContext cls p.id) ∧ p.context tail_ = some (tailContext cls p.id)
  names : (l.map (·.name_)).Nodup
  found : ∀ name ctx, (∃ c, c ≠ tail_ ∧ context0 (named name) p = .ok (some c) p ∧ p.context c = some ctx) ↔
    ctx ∈ l ∧ ctx.name_ = name
  foundFirst : ∀ handler, ∃ r, context0 (handledBy handler) p = .ok r p ∧
    r.map p.context = ((l ++ [tailContext cls p.id]).find? (handledBy handler)).map some
  got : ∀ name, get name p = .ok (((l ++ [tailContext cls p.id]).find? (named name)).bind (·.handler)) p
  duplicate : ∀ name handler nameCaches, name ≠ "" → name ∈ takenNames cls p.id l →
    Called.addLast cls name handler ⟨nameCaches, p⟩ = .throw ("Duplicate handler name:" ++ cStr name) ⟨nameCaches, p⟩
  absent : ∀ matching : ChannelHandlerContext → Bool, (∀ ctx ∈ l ++ [tailContext cls p.id], ¬matching ctx) →
    remove matching p = .ok () p

/-- A pipeline holds one list of contexts. -/
theorem Holds.unique {cls : Classes} {p : DefaultChannelPipeline} {l l' : List ChannelHandlerContext}
    (h : Holds cls p l) (h' : Holds cls p l') : l = l' := by
  obtain ⟨xs, e, -, hl⟩ := h.chain
  obtain ⟨ys, e', -, hl'⟩ := h'.chain
  obtain rfl : xs = ys := List.append_cancel_right (List.cons.inj (e.unique e')).2
  exact (List.map_inj_right fun _ _ => Option.some_inj.mp).mp (hl.symm.trans hl')

/-- After the calls, the pipeline holds what they have filed. -/
def Kept (cls : Classes) (id : Nat) (es : List CallOn) : Prop :=
  ∃ p l, Run (Step cls) (new cls id) es p ∧ Run (Files cls id) [] (es.map Prod.snd) l ∧ Holds cls p l

/-- The call does not remove the tail, and does not ask for the type of a null pointer. -/
def Spares (cls : Classes) (p : DefaultChannelPipeline) : Call → Prop
  | .addLast name handler => name = "" → handler ≠ none
  | .removeNamed name => name ≠ (tailContext cls p.id).name_
  | .removeHandler handler => handler = some (.tailContext p.id) →
      ∃ c ctx, c ≠ tail_ ∧ p.context c = some ctx ∧ ctx.handler = handler
  | .get _ | .contextNamed _ | .contextOf _ => True

/-- The call adds a handler of the type without a name. -/
def Call.Unnamed (cls : Classes) (handlerType : String) (c : Call) : Prop :=
  ∃ h, c = .addLast "" (some h) ∧ (cls.of h).name = handlerType

variable {cls : Classes} {p p' : DefaultChannelPipeline} {xs : List Nat} {l l' : List ChannelHandlerContext}
  {matching : ChannelHandlerContext → Bool} {id : Nat} {e : CallOn} {es : List CallOn} {s s' : Called} {c : Call}

/-- What a call comes to, that is what it is for; the cache has the types of the handlers without a name. -/
structure Call.Runs (cls : Classes) (s : Called) (l : List ChannelHandlerContext) (c : Call) (s' : Called)
    (l' : List ChannelHandlerContext) : Prop where
  left : left (c.run cls s) = some s'
  files : Files cls s.pipeline.id l c l'
  id : s'.pipeline.id = s.pipeline.id
  chained : ∃ xs, Chained cls s'.pipeline xs l'
  cached : ∀ handlerType, s'.Cached handlerType ↔ s.Cached handlerType ∨ c.Unnamed cls handlerType

namespace Chained

variable (C : Chained cls p xs l)

include C

theorem names_nodup : (l.map (·.name_)).Nodup ∧ (tailContext cls p.id).name_ ∉ l.map (·.name_) := by
  have h := C.names
  rw [List.map_append, List.nodup_append] at h
  exact ⟨h.1, fun hm => h.2.2 _ hm _ (by simp) rfl⟩

theorem mem_contexts : ∀ ctx ∈ l, ∃ c ∈ xs, p.context c = some ctx := by
  intro ctx hctx
  have hm : some ctx ∈ xs.map p.context := by
    rw [C.contexts]
    exact List.mem_map_of_mem hctx
  exact List.mem_map.mp hm

theorem context_mem {c : Nat} {ctx : ChannelHandlerContext} (hc : c ∈ xs) (h : p.context c = some ctx) : ctx ∈ l := by
  have hm : p.context c ∈ l.map some := by
    rw [← C.contexts]
    exact List.mem_map_of_mem hc
  obtain ⟨ctx', hm, he⟩ := List.mem_map.mp hm
  rw [h] at he
  exact Option.some_inj.mp he ▸ hm

theorem find_named {ctx : ChannelHandlerContext} (hm : ctx ∈ l ++ [tailContext cls p.id]) :
    (l ++ [tailContext cls p.id]).find? (named ctx.name_) = some ctx := by
  obtain ⟨ctx', hf⟩ := Option.isSome_iff_exists.mp
    (List.find?_isSome.mpr ⟨ctx, hm, named_iff.mpr rfl⟩)
  have hn : ctx'.name_ = ctx.name_ := named_iff.mp (List.find?_some hf)
  rw [hf, List.inj_on_of_nodup_map C.names (List.mem_of_find?_eq_some hf) hm hn]

theorem found_iff (name : String) (ctx : ChannelHandlerContext) :
    (∃ c, c ≠ tail_ ∧ context0 (named name) p = .ok (some c) p ∧ p.context c = some ctx) ↔
      ctx ∈ l ∧ ctx.name_ = name := by
  rw [C.context0_eq]
  constructor
  · rintro ⟨c, hct, hc, hctx⟩
    have hf : (xs ++ [tail_]).find? (fun c => (p.context c).any (named name)) = some c := by
      injection hc
    have hm := List.mem_of_find?_eq_some hf
    have hcx : c ∈ xs := by
      simpa [hct] using hm
    have hn := List.find?_some hf
    rw [hctx] at hn
    exact ⟨C.context_mem hcx hctx, named_iff.mp hn⟩
  · rintro ⟨hm, rfl⟩
    have h := C.find_context (named ctx.name_)
    rw [C.find_named (List.mem_append_left _ hm), Option.map_some, Option.map_eq_some_iff] at h
    obtain ⟨c, hc, hctx⟩ := h
    refine ⟨c, ?_, by rw [hc], hctx⟩
    rintro rfl
    rw [C.tail, Option.some_inj] at hctx
    subst hctx
    exact C.names_nodup.2 (List.mem_map_of_mem hm)

theorem get_eq (name : String) :
    get name p = .ok (((l ++ [tailContext cls p.id]).find? (named name)).bind (·.handler)) p := by
  have h := C.find_context (named name)
  rw [get, Method.bind_apply, C.context0_eq, Outcome.bind_ok, Method.get_apply]
  cases hf : (xs ++ [tail_]).find? fun c => (p.context c).any (named name) with
  | none =>
    rw [hf, Option.map_none, eq_comm, Option.map_eq_none_iff] at h
    rw [h]
    rfl
  | some c =>
    rw [hf, Option.map_some, eq_comm, Option.map_eq_some_iff] at h
    obtain ⟨ctx, hctx, hc⟩ := h
    rw [hctx, Option.bind_some, Option.bind_some, ← hc, Option.bind_some]

theorem holds : Holds cls p l where
  chain := ⟨xs, C.links, C.nodup, C.contexts⟩
  sentinels := ⟨C.head, C.tail⟩
  names := C.names_nodup.1
  found := C.found_iff
  foundFirst _ := ⟨_, C.context0_eq _, C.find_context _⟩
  got := C.get_eq
  duplicate _ handler _ hne hn := Called.addLast_duplicate C handler hne hn
  absent _ := C.remove_absent

/-- A removal that is not of the tail. -/
theorem remove_spared (matching : ChannelHandlerContext → Bool) (hs : matching (tailContext cls p.id) → ∃ ctx ∈ l, matching ctx) :
    ∃ p', remove matching p = .ok () p' ∧ p'.id = p.id ∧ ∃ xs', Chained cls p' xs' (l.eraseP matching) := by
  by_cases hm : ∃ ctx ∈ l, matching ctx
  · exact C.remove_context hm
  · have hl : ∀ ctx ∈ l, ¬matching ctx := fun ctx h h' => hm ⟨ctx, h, h'⟩
    refine ⟨p, C.remove_absent ?_, rfl, xs, ?_⟩
    · intro ctx hctx
      rcases List.mem_append.mp hctx with h | h
      · exact hl ctx h
      · rw [List.mem_singleton.mp h]
        exact fun ht => hm (hs ht)
    · rwa [List.eraseP_of_forall_not hl]

/-- The condition on a removal of a handler, of the contexts of the pipeline. -/
theorem exists_handledBy {handler : Option ChannelHandler} :
    (∃ c ctx, c ≠ tail_ ∧ p.context c = some ctx ∧ ctx.handler = handler) ∧ handler = some (.tailContext p.id) ↔
      (∃ ctx ∈ l, handledBy handler ctx) ∧ handler = some (.tailContext p.id) := by
  refine and_congr_left fun hh => ⟨?_, ?_⟩
  · rintro ⟨c, ctx, hct, hc, h⟩
    have hch : c ≠ head_ := by
      rintro rfl
      rw [C.head, Option.some_inj] at hc
      subst hc
      simp [headContext, hh] at h
    have hcx : c ∈ xs := by simpa [hct, hch] using C.live c (by rw [hc]; rfl)
    exact ⟨ctx, C.context_mem hcx hc, handledBy_iff.mpr h⟩
  · rintro ⟨ctx, hm, h⟩
    obtain ⟨c, hc, hctx⟩ := C.mem_contexts ctx hm
    exact ⟨c, ctx, fun hct => C.nodup_tail.2.1 (hct ▸ hc), hctx, handledBy_iff.mp h⟩

end Chained

/-! ## One call -/

/-- A call that is on the pipeline alone. -/
theorem Call.Runs.of_onPipeline {m : Method DefaultChannelPipeline Unit} (hr : c.run cls = Called.onPipeline m)
    (hm : m s.pipeline = .ok () p') (hf : Files cls s.pipeline.id l c l') (hid : p'.id = s.pipeline.id)
    (C : ∃ xs, Chained cls p' xs l') (hc : ∀ handlerType, ¬c.Unnamed cls handlerType) :
    c.Runs cls s l { s with pipeline := p' } l' where
  left := by simp [hr, Called.onPipeline, hm, DefaultChannelPipeline.left]
  files := hf
  id := hid
  chained := C
  cached handlerType := (or_iff_left (hc handlerType)).symm

namespace Chained

variable (C : Chained cls s.pipeline xs l)

include C

theorem lookup {α : Type} {m : Method DefaultChannelPipeline α} {a : α} (hm : m s.pipeline = .ok a s.pipeline)
    (hr : c.run cls = Called.onPipeline do let _ ← m) (hf : Files cls s.pipeline.id l c l)
    (hc : ∀ handlerType, ¬c.Unnamed cls handlerType) : c.Runs cls s l s l := by
  apply Call.Runs.of_onPipeline hr _ hf rfl ⟨xs, C⟩ hc
  rw [Method.bind_apply, hm]
  rfl

/-- An addition, under a name that is given or generated, or not at all. -/
theorem addLast (name : String) (handler : Option ChannelHandler) (hs : name = "" → handler ≠ none) :
    ∃ s' l', (Call.addLast name handler).Runs cls s l s' l' := by
  by_cases hne : name = ""
  · subst hne
    obtain ⟨h, rfl⟩ := Option.ne_none_iff_exists'.mp (hs rfl)
    obtain ⟨name, ⟨caches, p⟩, hg, hp, hn, hc⟩ := Called.generateName_free C h
    obtain rfl : p = s.pipeline := hp
    obtain ⟨p', ha, hid, C'⟩ := Called.addLast_unnamed hg C hn
    refine ⟨_, _, by rw [Call.run, ha, left], .unnamed hn, hid, C', fun handlerType => ?_⟩
    rw [show Called.Cached ⟨caches, p'⟩ handlerType ↔ Called.Cached ⟨caches, s.pipeline⟩ handlerType from Iff.rfl, hc]
    simp [Call.Unnamed, eq_comm]
  · have hu : ∀ handlerType, ¬(Call.addLast name handler).Unnamed cls handlerType := by
      rintro handlerType ⟨h, hc, -⟩
      exact hne (Call.addLast.inj hc).1
    by_cases hn : name ∈ takenNames cls s.pipeline.id l
    · exact ⟨s, l, by rw [Call.run, Called.addLast_duplicate C _ hne hn, left], .duplicate hne hn, rfl, ⟨xs, C⟩,
        fun handlerType => (or_iff_left (hu handlerType)).symm⟩
    · obtain ⟨p', ha, hid, C'⟩ := Called.addLast_given C handler hne hn
      exact ⟨{ s with pipeline := p' }, _, by rw [Call.run, ha, left], .added hne hn, hid, C', fun handlerType =>
        (or_iff_left (hu handlerType)).symm⟩

/-- A call that spares the tail does what it is for. -/
theorem runs (hs : Spares cls s.pipeline c) : ∃ s' l', c.Runs cls s l s' l' := by
  cases c with
  | addLast name handler => exact C.addLast name handler hs
  | removeNamed name =>
    obtain ⟨p', hr, hid, C'⟩ := C.remove_spared (named name) fun h => absurd (named_iff.mp h).symm hs
    exact ⟨_, _, .of_onPipeline rfl hr (.removeNamed name l) hid C' nofun⟩
  | removeHandler handler =>
    obtain ⟨p', hr, hid, C'⟩ := C.remove_spared (handledBy handler) fun h => by
      have hh : handler = some (.tailContext s.pipeline.id) := (handledBy_iff.mp h).symm
      exact (C.exists_handledBy.mp ⟨hs hh, hh⟩).1
    exact ⟨_, _, .of_onPipeline rfl hr (.removeHandler handler l) hid C' nofun⟩
  | get name => exact ⟨s, l, C.lookup (C.get_eq name) rfl (.get name l) nofun⟩
  | contextNamed name => exact ⟨s, l, C.lookup (C.context0_eq _) rfl (.contextNamed name l) nofun⟩
  | contextOf handler => exact ⟨s, l, C.lookup (C.context0_eq _) rfl (.contextOf handler l) nofun⟩

/-- Any other call has undefined behaviour. -/
theorem not_runs (hs : ¬Spares cls s.pipeline c) : left (c.run cls s) = none := by
  cases c with
  | addLast name handler =>
    obtain ⟨rfl, rfl⟩ : name = "" ∧ handler = none := by simpa [Spares] using hs
    rfl
  | removeNamed name =>
    have ht : (tailContext cls s.pipeline.id).name_ = name := (not_not.mp hs).symm
    have hl : ∀ ctx ∈ l, ¬named name ctx := by
      intro ctx hctx hn
      apply C.names_nodup.2
      rw [ht, ← named_iff.mp hn]
      exact List.mem_map_of_mem hctx
    simp [Call.run, Called.onPipeline, C.remove_only_tail hl (named_iff.mpr ht), left]
  | removeHandler handler =>
    obtain ⟨hh, hn⟩ := Classical.not_imp.mp hs
    have hl : ∀ ctx ∈ l, ¬handledBy handler ctx := fun ctx hctx h =>
      hn (C.exists_handledBy.mpr ⟨⟨ctx, hctx, h⟩, hh⟩).1
    have ht : handledBy handler (tailContext cls s.pipeline.id) := handledBy_iff.mpr hh.symm
    simp [Call.run, Called.onPipeline, C.remove_only_tail hl ht, left]
  | get | contextNamed | contextOf => exact absurd trivial hs

/-- What has returned or thrown has done what it is for. -/
theorem runs_of_left (h : left (c.run cls s) = some s') : ∃ l', c.Runs cls s l s' l' := by
  have hs : Spares cls s.pipeline c := by
    by_contra hs
    rw [C.not_runs hs] at h
    cases h
  obtain ⟨s'', l', R⟩ := C.runs hs
  obtain rfl := Option.some_inj.mp (h.symm.trans R.left)
  exact ⟨l', R⟩

end Chained

/-! ## Runs -/

/-- Whatever calls have returned or thrown, they have filed what they are for. -/
theorem files_of_run (h : Run (Step cls) (new cls id) es p) :
    p.id = id ∧ ∃ l, Run (Files cls id) [] (es.map Prod.snd) l ∧ ∃ xs, Chained cls p xs l := by
  induction h with
  | nil => exact ⟨rfl, [], .nil, [], chained_new cls id⟩
  | @snoc es e p p' _ hstep ih =>
    obtain ⟨rfl, l, hl, xs, C⟩ := ih
    obtain ⟨s', hs', rfl⟩ := Option.map_eq_some_iff.mp hstep
    obtain ⟨l', R⟩ := Chained.runs_of_left C hs'
    refine ⟨R.id, l', ?_, R.chained⟩
    rw [List.map_append]
    exact hl.snoc R.files

theorem Run.unique_step (h : Run (Step cls) (new cls id) es p) (h' : Run (Step cls) (new cls id) es p') : p = p' :=
  Run.unique (fun _ _ _ _ h h' => Option.some_inj.mp (h.symm.trans h')) h h'

/-- The chain is what the calls have filed, after every call, if and only if each call spares the tail. -/
theorem chain_kept_iff (cls : Classes) (id : Nat) (es : List CallOn) :
    (∀ es', es' <+: es → Kept cls id es') ↔
      ∀ es' e p, es' ++ [e] <+: es → Run (Step cls) (new cls id) es' p → Spares cls p e.2 := by
  constructor
  · intro h es' e p hp hr
    obtain ⟨p', l, hr', -, -⟩ := h _ hp
    obtain ⟨t, ht, hstep⟩ := hr'.of_snoc
    obtain rfl := Run.unique_step hr ht
    obtain ⟨-, l, -, xs, C⟩ := files_of_run hr
    by_contra hs
    rw [Step, Chained.not_runs C hs] at hstep
    cases hstep
  · intro h es' hp
    have hr : ∃ p, Run (Step cls) (new cls id) es' p := by
      induction es' using List.reverseRecOn with
      | nil => exact ⟨_, .nil⟩
      | append_singleton es' e ih =>
        obtain ⟨p, hr⟩ := ih ((List.prefix_append es' [e]).trans hp)
        obtain ⟨-, l, -, xs, C⟩ := files_of_run hr
        obtain ⟨s', _, R⟩ := Chained.runs (s := ⟨e.1, p⟩) C (h es' e p hp hr)
        exact ⟨s'.pipeline, hr.snoc (Option.map_eq_some_iff.mpr ⟨s', R.left, rfl⟩)⟩
    obtain ⟨p, hr⟩ := hr
    obtain ⟨-, l, hl, xs, C⟩ := files_of_run hr
    exact ⟨p, l, hr, hl, C.holds⟩

/-- Classes with one type of inbound handlers. -/
def mangled : Classes where
  user _ := ⟨"N4comm3net23ServerBootstrapAcceptorE", true, false⟩
  headContext := "N4comm3net22DefaultChannelPipeline11HeadContextE"
  tailContext := "N4comm3net22DefaultChannelPipeline11TailContextE"

/-- A removal by the name of the tail. -/
theorem chain_not_kept :
    ¬∀ es', es' <+: [(none, Call.removeNamed "N4comm3net22DefaultChannelPipeline11TailContextE#0")] →
      Kept mangled 0 es' := by
  intro h
  obtain ⟨p, l, hr, -, -⟩ := h _ (List.prefix_refl _)
  have hs : ¬Spares mangled (new mangled 0) (.removeNamed "N4comm3net22DefaultChannelPipeline11TailContextE#0") :=
    fun hs => hs (by decide)
  have hstep := hr.of_one
  rw [Step, Chained.not_runs (s := ⟨none, new mangled 0⟩) (chained_new mangled 0) hs] at hstep
  cases hstep

end DefaultChannelPipeline

end Nio.Net
