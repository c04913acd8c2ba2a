import NioSocket.Net.InitializerTree

/-!
# Initializers that throw

`initChannel` throws of its own, or because a name that it gives a handler is taken. What it has added before
stays in the pipeline, and so does the initializer; the connection is closed, and the registration goes on behind the
initializer, to what it has added too (`closed_iff_thrown`).
-/

namespace Nio.Net

open DefaultChannelPipeline
open Passing (onCalled onVisits)

/-- How far additions come: the first `k` make the contexts `new`, behind the contexts `l`, and then a name is taken
or all are made. -/
structure AddedUpTo (cls : Classes) (pipeline : Nat) (l : List ChannelHandlerContext) (as : List Addition) (k : Nat)
    (new : List ChannelHandlerContext) : Prop where
  le : k ≤ as.length
  filed : List.Forall₂ (Filed cls) (as.take k) new
  taken : ∀ a, as[k]? = some a → a.1 ≠ "" ∧ a.1 ∈ takenNames cls pipeline (l ++ new)

/-- An addition names a handler, or has one. -/
def Addition.Given (a : Addition) : Prop := a.1 = "" → a.2.isSome

theorem addAll_upTo {cls : Classes} {as : List Addition} {s : Called} {xs : List Nat} {l : List ChannelHandlerContext}
    (C : Chained cls s.pipeline xs l) (ha : ∀ a ∈ as, a.Given) :
    ∃ (k : Nat) (t : Called) (new : List ChannelHandlerContext),
      AddedUpTo cls s.pipeline.id l as k new ∧ t.pipeline.id = s.pipeline.id ∧
        Chained cls t.pipeline (xs ++ List.range' s.pipeline.nextContext k) (l ++ new) ∧
        (k = as.length ∧ addAll cls as s = .ok () t ∨
          ∃ a, as[k]? = some a ∧ addAll cls as s = .throw ("Duplicate handler name:" ++ cStr a.1) t) := by
  induction as generalizing s xs l with
  | nil => exact ⟨0, s, [], ⟨Nat.le_refl 0, .nil, fun a h => by simp at h⟩, rfl, by simpa using C, .inl ⟨rfl, rfl⟩⟩
  | cons a as ih =>
    have hg : a.Given := ha a List.mem_cons_self
    by_cases hd : a.1 ≠ "" ∧ a.1 ∈ takenNames cls s.pipeline.id l
    · refine ⟨0, s, [], ⟨Nat.zero_le _, .nil, fun b hb => ?_⟩, rfl, by simpa using C, .inr ⟨a, rfl, ?_⟩⟩
      · obtain rfl : a = b := by simpa using hb
        simpa using hd
      · rw [addAll, Method.bind_apply, Called.addLast_duplicate C _ hd.1 hd.2]
        rfl
    · have hn : a.1 ≠ "" → a.1 ∉ takenNames cls s.pipeline.id l := fun hne hm => hd ⟨hne, hm⟩
      obtain ⟨t, ctx, ht, hid, hnext, C', F⟩ := Called.addLast_filed C hg hn
      obtain ⟨k, t', new, hk, hid', C'', hcase⟩ := ih C' fun b hb => ha b (List.mem_cons_of_mem a hb)
      have hrun : addAll cls (a :: as) s = addAll cls as t := by
        rw [addAll, Method.bind_apply, ht]
        rfl
      refine ⟨k + 1, t', ctx :: new, ⟨Nat.succ_le_succ hk.le, .cons F hk.filed, fun b hb => ?_⟩, hid'.trans hid, ?_, ?_⟩
      · have h := hk.taken b hb
        rw [hid] at h
        simpa using h
      · rw [hnext] at C''
        simpa [List.range'_succ] using C''
      · rw [hrun]
        rcases hcase with ⟨rfl, h⟩ | ⟨b, hb, h⟩
        · exact .inl ⟨rfl, h⟩
        · exact .inr ⟨b, hb, h⟩

namespace ChannelInitializer

variable {cls : Classes} {ε κ : Type} {inits : Initializers cls} {closeCallback : κ} {c : Nat} {s : Passing ε κ}
  {ctx : ChannelHandlerContext} {h : ChannelHandler} {xs zs ys : List Nat} {l lz lq : List ChannelHandlerContext}

/-- The close of a connection comes to these contexts. -/
def closed (closeCallback : κ) (cs : List Nat) : List (Visit ε κ) := cs.map (.called (.close closeCallback))

/-- The connection is closed, from an initializer on towards the head. -/
theorem exceptionCaught_eq (C : Chained cls s.called.pipeline (zs ++ c :: ys) l) (P : Populated cls l) :
    exceptionCaught closeCallback cls c s = .ok ()
      (s.visited (closed closeCallback ((zs.filter (outboundAt s.called.pipeline)).reverse ++ [head_]))) := by
  have hmem : ∀ d ∈ zs, d ∈ zs ++ c :: ys := fun d hd => List.mem_append_left _ hd
  have hc : (s.called.pipeline.context c).isSome := C.isSome (by simp)
  have hderef : onCalled (Called.onPipeline (deref (some c))) s = .ok c s := by
    apply Passing.onCalled_ok
    apply Called.onPipeline_ok
    simp [deref, hc]
  have hk : takes s.called.pipeline (HandlerEvent.close closeCallback : HandlerEvent ε κ) =
      outboundAt s.called.pipeline := takes_outbound rfl
  have hrev : (head_ :: (zs ++ c :: ys ++ [tail_])).reverse = (tail_ :: ys.reverse) ++ c :: (zs.reverse ++ [head_]) := by
    simp
  have e := C.links.reverse
  rw [hrev] at e
  have eb : Ended ((HandlerEvent.close closeCallback : HandlerEvent ε κ).link s.called.pipeline) s.called.pipeline.next
      (some c) ((HandlerEvent.close closeCallback : HandlerEvent ε κ).link s.called.pipeline c)
      (zs.reverse ++ [head_]) := by
    have hlink : (HandlerEvent.close closeCallback : HandlerEvent ε κ).link s.called.pipeline =
        s.called.pipeline.prev := if_neg (by simp [HandlerEvent.isInbound])
    rw [hlink]
    exact e.behind
  have hlen : (zs.reverse ++ [head_]).length ≤ s.called.pipeline.nextContext := by
    have h1 := C.length_le
    have h2 := C.length_eq
    simp only [List.length_append, List.length_cons, List.length_reverse, List.length_nil] at h2 ⊢
    omega
  have hhead : takes s.called.pipeline (HandlerEvent.close closeCallback : HandlerEvent ε κ) head_ ∧
      endsAt s.called.pipeline (HandlerEvent.close closeCallback : HandlerEvent ε κ) head_ := by
    rw [hk]
    exact ⟨C.outboundAt_head, by simp [endsAt, C.head, headContext, HandlerEvent.ends, HandlerEvent.isInbound]⟩
  have hpass : passOn s.called.pipeline (HandlerEvent.close closeCallback : HandlerEvent ε κ)
      (invoke cls s.called.pipeline (.calm ε) (.close closeCallback) (s.called.pipeline.nextContext + 1)) c s.visits =
        .ok () (s.visits ++ trace s.called.pipeline (.calm ε) (.close closeCallback) (zs.reverse ++ [head_])) := by
    refine passOn_eq eb (fun d hd => C.typed P d ?_) hhead (fun d hd => C.endsAt_eq P _ d ?_) hlen ?_
    · simp only [List.mem_append, List.mem_reverse, List.mem_singleton] at hd
      rcases hd with hd | rfl
      · simp [hd]
      · simp
    · exact hmem d (List.mem_reverse.mp hd)
    · simp only [List.length_append, List.length_reverse, List.length_cons, List.length_nil] at hlen
      simp only [List.length_reverse]
      omega
  rw [exceptionCaught, Method.bind_apply, hderef, Outcome.bind_ok, Passing.onVisits_ok hpass,
    trace_eq fun d _ _ => thrownAt_of_not_read rfl d, hk]
  simp [Passing.visited, closed, C.outboundAt_head]

/-- The initializer of the context `c` has thrown: it stays, with what it has added behind all others, the connection is
closed, and the registration has gone on. -/
structure Closed (cls : Classes) (closeCallback : κ) (zs : List Nat) (c : Nat) (ys : List Nat)
    (lz : List ChannelHandlerContext) (ctx : ChannelHandlerContext) (lq : List ChannelHandlerContext)
    (s s' : Passing ε κ) : Prop where
  chained : Chained cls s'.called.pipeline (zs ++ c :: ys) (lz ++ ctx :: lq)
  visits : s'.visits = s.visits ++
    (registered (head_ :: (zs.filter (inboundAt s'.called.pipeline) ++ [c])) ++
      closed closeCallback ((zs.filter (outboundAt s'.called.pipeline)).reverse ++ [head_]) ++
      registered (ys.filter (inboundAt s'.called.pipeline) ++ [tail_]))

/-- The initializer of the context `c` has gone, and the registration has come to all others, from the head on. -/
structure Replaced (cls : Classes) (zs : List Nat) (c : Nat) (ys : List Nat) (l : List ChannelHandlerContext)
    (s s' : Passing ε κ) : Prop where
  chained : Chained cls s'.called.pipeline (zs ++ ys) l
  visits : s'.visits = s.visits ++
    (registered (head_ :: (zs.filter (inboundAt s'.called.pipeline) ++ [c])) ++
      registered (head_ :: ((zs ++ ys).filter (inboundAt s'.called.pipeline) ++ [tail_])))

variable (closeCallback) in
/-- An initializer that throws. -/
theorem initChannel_throw {I : Initialization} {t : Called} {what : String} (hrun : I.run cls s.called = .throw what t)
    (C : Chained cls t.pipeline (zs ++ c :: ys) l) (P : Populated cls l) :
    initChannel closeCallback cls I h c s = .ok false
      (({ s with called := t } : Passing ε κ).visited
        (closed closeCallback ((zs.filter (outboundAt t.pipeline)).reverse ++ [head_]))) := by
  have hthrow : onCalled (I.run cls) s = .throw what { s with called := t } := by simp [onCalled, hrun]
  rw [initChannel, hthrow]
  simp only [Method.bind_apply, exceptionCaught_eq (s := { s with called := t }) C P, Outcome.bind_ok]
  rfl

/-- The registration goes on to the tail. -/
theorem fire_tail (closeCallback : κ) (C : Chained cls s.called.pipeline (zs ++ c :: ys) l) (P : Populated cls l)
    (hys : ∀ d ∈ ys, ∃ ctx, s.called.pipeline.context d = some ctx ∧ Leaf inits ctx) (fuel : Nat) :
    fireChannelRegistered (invokeChannelRegistered inits closeCallback
        (fuel + 1 + (ys.filter (inboundAt s.called.pipeline)).length)) c s =
      .ok () (s.visited (registered (ys.filter (inboundAt s.called.pipeline) ++ [tail_]))) := by
  have e := C.links
  have hx : head_ :: (zs ++ c :: ys ++ [tail_]) = (head_ :: zs) ++ c :: (ys ++ [tail_]) := by simp
  rw [hx] at e
  have hlen : (ys ++ [tail_]).length ≤ s.called.pipeline.nextContext := by
    have h1 := C.length_le
    have h2 := C.length_eq
    simp only [List.length_append, List.length_cons, List.length_nil] at h2 ⊢
    omega
  have ht : ∀ d ∈ ys ++ [tail_], ∃ ctx, s.called.pipeline.context d = some ctx ∧ Typed cls ctx := by
    intro d hd
    apply C.typed P
    rw [hx]
    exact List.mem_append_right _ (List.mem_cons_of_mem _ hd)
  have hend := invoke_end inits closeCallback fuel
    (s := s.visited (registered (ys.filter (inboundAt s.called.pipeline)))) C.tail
    (typed_tailContext s.called.pipeline.id) rfl rfl rfl rfl
  rw [fire_leaves _ _ rfl e.behind ht hys C.inboundAt_tail hlen, hend, Passing.visited_visited]
  simp [registered]

variable {I : Initialization}

theorem leaves_filed {as : List Addition} {new : List ChannelHandlerContext} (F : List.Forall₂ (Filed cls) as new)
    (ha : ∀ a ∈ as, inits.init a = none) : ∀ d ∈ new, d.handler.bind inits.of = none := by
  induction F with
  | nil => simp
  | @cons a d as new hf _ ih =>
    intro d' hd
    rcases List.mem_cons.mp hd with rfl | hd
    · rw [hf.handler]
      exact ha a List.mem_cons_self
    · exact ih (fun b hb => ha b (List.mem_cons_of_mem a hb)) d' hd

/-- An initializer among handlers that are none, which adds handlers that are none. -/
theorem register_single (closeCallback : κ) (C : Chained cls s.called.pipeline (zs ++ c :: ys) (lz ++ ctx :: lq))
    (hl : zs.length = lz.length) (P : Populated cls (lz ++ ctx :: lq)) (hI : ctx.handler.bind inits.of = some I)
    (hother : ∀ d ∈ lz ++ lq, d.handler.bind inits.of = none)
    (ha : ∀ a ∈ I.additions, a.Given ∧ inits.init a = none) :
    ∃ (k : Nat) (new : List ChannelHandlerContext) (N : Nat) (s' : Passing ε κ),
      AddedUpTo cls s.called.pipeline.id (lz ++ ctx :: lq) I.additions k new ∧
      (∀ fuel, N ≤ fuel → invokeChannelRegistered inits closeCallback fuel head_ s = .ok () s') ∧
      (k = I.additions.length ∧ I.throws = none ∧
          Replaced cls zs c (ys ++ List.range' s.called.pipeline.nextContext k) (lz ++ (lq ++ new)) s s' ∨
        ¬(k = I.additions.length ∧ I.throws = none) ∧
          Closed cls closeCallback zs c (ys ++ List.range' s.called.pipeline.nextContext k) lz ctx (lq ++ new) s s') := by
  have hlz : ∀ d ∈ lz, d.handler.bind inits.of = none := fun d hd => hother d (List.mem_append_left lq hd)
  obtain ⟨h, hh, hne, hpass⟩ := invoke_to_init closeCallback C hl P hlz hI
  obtain ⟨k, t, new, hk, hid, C', hcase⟩ := addAll_upTo C fun a hm => (ha a hm).1
  have hnew : ∀ d ∈ new, d.handler.bind inits.of = none :=
    leaves_filed hk.filed fun a hm => (ha a (List.mem_of_mem_take hm)).2
  have Pnew : Populated cls new := populated_of_filed hk.filed
  have P' : Populated cls (lz ++ (lq ++ new)) := by
    intro d hd
    simp only [List.mem_append] at hd
    rcases hd with hd | hd | hd
    · exact P d (by simp [hd])
    · exact P d (by simp [hd])
    · exact Pnew d hd
  have hother' : ∀ d ∈ lz ++ (lq ++ new), d.handler.bind inits.of = none := by
    intro d hd
    rw [← List.append_assoc] at hd
    rcases List.mem_append.mp hd with hd | hd
    · exact hother d hd
    · exact hnew d hd
  have hruns : (k = I.additions.length ∧ I.throws = none ∧ addAll cls I.additions s.called = .ok () t) ∨
      (¬(k = I.additions.length ∧ I.throws = none) ∧ ∃ what, I.run cls s.called = .throw what t) := by
    rcases hcase with ⟨hlen, hadd⟩ | ⟨a, hget, hadd⟩
    · cases ht : I.throws with
      | none => exact .inl ⟨hlen, rfl, hadd⟩
      | some what =>
        refine .inr ⟨fun hc => by simp at hc, what, ?_⟩
        rw [Initialization.run, Method.bind_apply, hadd, Outcome.bind_ok, ht]
        rfl
    · have hlt : k < I.additions.length := (List.getElem?_eq_some_iff.mp hget).1
      refine .inr ⟨fun hc => hlt.ne hc.1, "Duplicate handler name:" ++ cStr a.1, ?_⟩
      rw [Initialization.run, Method.bind_apply, hadd, Outcome.bind_throw]
  have hcz := (C.contexts_append hl).1
  rcases hruns with ⟨hlen, ht, hadd⟩ | ⟨hno, what, hrun⟩
  · obtain ⟨t', hinit, -, -, C''⟩ := initChannel_ok closeCallback
      (s := s.visited (registered (head_ :: (zs.filter (inboundAt s.called.pipeline) ++ [c])))) hadd ht C' hl hh hne
    have hz := filter_inboundAt ((C''.contexts_append hl).1.trans hcz.symm)
    have hlast := invoke_to_tail closeCallback (s := ⟨t', s.visits ++
      registered (head_ :: (zs.filter (inboundAt s.called.pipeline) ++ [c]))⟩) C'' P' hother'
    refine ⟨k, new, (zs.filter (inboundAt s.called.pipeline)).length + ((zs ++ (ys ++
      List.range' s.called.pipeline.nextContext k)).filter (inboundAt t'.pipeline)).length + 4,
      ⟨t', s.visits ++ (registered (head_ :: (zs.filter (inboundAt t'.pipeline) ++ [c])) ++
        registered (head_ :: ((zs ++ (ys ++ List.range' s.called.pipeline.nextContext k)).filter
          (inboundAt t'.pipeline) ++ [tail_])))⟩, hk, fun fuel hN => ?_, .inl ⟨hlen, ht, C'', rfl⟩⟩
    obtain ⟨j, rfl⟩ : ∃ j, fuel = j + 1 + ((zs ++ (ys ++ List.range' s.called.pipeline.nextContext k)).filter
        (inboundAt t'.pipeline)).length + 1 + 1 + (zs.filter (inboundAt s.called.pipeline)).length + 1 :=
      ⟨fuel - ((zs.filter (inboundAt s.called.pipeline)).length + ((zs ++ (ys ++
        List.range' s.called.pipeline.nextContext k)).filter (inboundAt t'.pipeline)).length + 4), by omega⟩
    rw [hpass, hinit, Outcome.bind_ok, if_pos rfl]
    refine (hlast j).trans ?_
    rw [hz]
    simp [Passing.visited]
  · rw [List.append_assoc, List.append_assoc, List.cons_append, List.cons_append] at C'
    have Pt : Populated cls (lz ++ ctx :: (lq ++ new)) := by
      intro d hd
      simp only [List.mem_append, List.mem_cons] at hd
      rcases hd with hd | rfl | hd | hd
      · exact P d (by simp [hd])
      · exact P d (by simp)
      · exact P d (by simp [hd])
      · exact Pnew d hd
    obtain ⟨hcz', hcq'⟩ := C'.contexts_append hl
    have hz := filter_inboundAt (hcz'.trans hcz.symm)
    have hys := leaves_of (List.cons.inj hcq').2 (fun d hd => Pt d (by simp at hd ⊢; tauto))
      (fun d hd => hother' d (List.mem_append_right lz hd))
    have hinit := initChannel_throw closeCallback (h := h) (c := c)
      (s := s.visited (registered (head_ :: (zs.filter (inboundAt s.called.pipeline) ++ [c])))) hrun C' Pt
    have hlast := fire_tail closeCallback (s := ⟨t, s.visits ++
      registered (head_ :: (zs.filter (inboundAt s.called.pipeline) ++ [c])) ++
      closed closeCallback ((zs.filter (outboundAt t.pipeline)).reverse ++ [head_])⟩) C' Pt hys
    refine ⟨k, new, (zs.filter (inboundAt s.called.pipeline)).length +
      ((ys ++ List.range' s.called.pipeline.nextContext k).filter (inboundAt t.pipeline)).length + 3,
      ⟨t, s.visits ++ (registered (head_ :: (zs.filter (inboundAt t.pipeline) ++ [c])) ++
        closed closeCallback ((zs.filter (outboundAt t.pipeline)).reverse ++ [head_]) ++
        registered ((ys ++ List.range' s.called.pipeline.nextContext k).filter (inboundAt t.pipeline) ++ [tail_]))⟩,
      hk, fun fuel hN => ?_, .inr ⟨hno, C', rfl⟩⟩
    obtain ⟨j, rfl⟩ : ∃ j, fuel = j + 1 + ((ys ++ List.range' s.called.pipeline.nextContext k).filter
        (inboundAt t.pipeline)).length + 1 + (zs.filter (inboundAt s.called.pipeline)).length + 1 :=
      ⟨fuel - ((zs.filter (inboundAt s.called.pipeline)).length +
        ((ys ++ List.range' s.called.pipeline.nextContext k).filter (inboundAt t.pipeline)).length + 3), by omega⟩
    rw [hpass, hinit, Outcome.bind_ok, if_neg Bool.false_ne_true]
    refine (hlast j).trans ?_
    rw [hz]
    simp [Passing.visited]

/-- What the registration of a pipeline comes to that has one initializer, which adds handlers that are none: if all
additions are made and it does not throw, it is replaced by them; and else it stays with the additions that were made,
and the connection is closed. The registration comes to the tail in any case. -/
theorem closed_iff_thrown {pipeline : Nat} {es : List CallOn} {p : DefaultChannelPipeline} (closeCallback : κ)
    (nameCaches : Option (String → Option String)) (hr : Run (Step cls) (new cls pipeline) es p)
    (hu : ∀ e ∈ es, e.2.OfUser) (hl : Holds cls p (lz ++ ctx :: lq)) (hI : ctx.handler.bind inits.of = some I)
    (hother : ∀ d ∈ lz ++ lq, d.handler.bind inits.of = none)
    (ha : ∀ a ∈ I.additions, a.Given ∧ inits.init a = none) :
    ∃ (zs : List Nat) (c : Nat) (ys : List Nat), (zs ++ c :: ys).map p.context = (lz ++ ctx :: lq).map some ∧
      ∃ (k : Nat) (new : List ChannelHandlerContext) (N : Nat) (s : Passing ε κ),
        AddedUpTo cls pipeline (lz ++ ctx :: lq) I.additions k new ∧
        (∀ fuel, N ≤ fuel →
          invokeChannelRegistered inits closeCallback fuel head_ ⟨⟨nameCaches, p⟩, []⟩ = .ok () s) ∧
        (k = I.additions.length ∧ I.throws = none ∧
            Replaced cls zs c (ys ++ List.range' p.nextContext k) (lz ++ (lq ++ new)) ⟨⟨nameCaches, p⟩, []⟩ s ∨
          ¬(k = I.additions.length ∧ I.throws = none) ∧
            Closed cls closeCallback zs c (ys ++ List.range' p.nextContext k) lz ctx (lq ++ new)
              ⟨⟨nameCaches, p⟩, []⟩ s) := by
  obtain ⟨hid, l, hf, xs, C⟩ := files_of_run hr
  obtain rfl := hl.unique C.holds
  have P : Populated cls (lz ++ ctx :: lq) := by
    apply populated_of_files hf
    intro c hc
    obtain ⟨e, he, rfl⟩ := List.mem_map.mp hc
    exact hu e he
  obtain ⟨zs, rest, rfl, hzs⟩ : ∃ zs rest, xs = zs ++ rest ∧ zs.length = lz.length := by
    refine ⟨xs.take lz.length, xs.drop lz.length, (List.take_append_drop _ _).symm, ?_⟩
    rw [List.length_take, C.length_eq]
    simp
  obtain ⟨c, ys, rfl⟩ : ∃ c ys, rest = c :: ys := by
    cases rest with
    | nil =>
      have := C.length_eq
      simp [hzs] at this
    | cons c ys => exact ⟨c, ys, rfl⟩
  obtain ⟨k, new, N, s, hk, hrun, hcase⟩ := register_single (s := ⟨⟨nameCaches, p⟩, []⟩) (ε := ε) closeCallback C hzs P
    hI hother ha
  exact ⟨zs, c, ys, C.contexts, k, new, N, s, hid ▸ hk, hrun, hcase⟩

/-- A reader, and an initializer that adds a writer and another handler under the name of the reader. -/
def readerInitializer : List CallOn :=
  [(none, .addLast "reader" (some (.user 0))), (none, .addLast "initializer" (some (.user 2)))]

/-- Object 2 is an initializer. -/
def readerInitializers : Initializers mangled where
  user object := if object = 2 then some ⟨[("writer", some 3), ("reader", some 4)], none⟩ else none
  inbound _ _ := rfl

/-- A handler that reads. -/
def reader : ChannelHandlerContext := .new mangled "reader" (some (.user 0))

/-- The initializer. -/
def initializer : ChannelHandlerContext := .new mangled "initializer" (some (.user 2))

theorem holds_readerInitializer : ∃ p, Run (Step mangled) (new mangled 0) readerInitializer p ∧
    Holds mangled p [reader, initializer] := by
  have hr : ∃ p, Run (Step mangled) (new mangled 0) readerInitializer p ∧
      Ended p.next p.prev none (some head_) (head_ :: ([2, 3] ++ [tail_])) ∧
      [2, 3].map p.context = [reader, initializer].map some :=
    ⟨_, .cons rfl (.cons rfl .nil), ⟨rfl, rfl, rfl, rfl, rfl, rfl, rfl, rfl, rfl⟩, rfl⟩
  obtain ⟨p, hr, e, hctx⟩ := hr
  obtain ⟨-, l, -, xs, C⟩ := files_of_run hr
  obtain rfl : xs = [2, 3] := List.append_cancel_right (List.cons.inj (C.links.unique e)).2
  have hl : l = [reader, initializer] :=
    (List.map_inj_right fun _ _ => Option.some_inj.mp).mp (C.contexts.symm.trans hctx)
  exact ⟨p, hr, hl ▸ C.holds⟩

/-- The second addition of the initializer throws. -/
theorem closed_iff_thrown_reader :
    ∃ p, Run (Step mangled) (new mangled 0) readerInitializer p ∧ ∃ (zs : List Nat) (c : Nat) (ys : List Nat),
      (zs ++ c :: ys).map p.context = [reader, initializer].map some ∧
      ∃ (k : Nat) (added : List ChannelHandlerContext) (N : Nat) (s : Passing Unit Unit),
        AddedUpTo mangled 0 [reader, initializer] [("writer", some 3), ("reader", some 4)] k added ∧
        (∀ fuel, N ≤ fuel →
          invokeChannelRegistered readerInitializers () fuel head_ ⟨⟨none, p⟩, []⟩ = .ok () s) ∧
        (k = 2 ∧ (none : Option String) = none ∧
            Replaced mangled zs c (ys ++ List.range' p.nextContext k) ([reader] ++ ([] ++ added)) ⟨⟨none, p⟩, []⟩ s ∨
          ¬(k = 2 ∧ (none : Option String) = none) ∧
            Closed mangled () zs c (ys ++ List.range' p.nextContext k) [reader] initializer ([] ++ added)
              ⟨⟨none, p⟩, []⟩ s) := by
  obtain ⟨p, hr, hl⟩ := holds_readerInitializer
  have hu : ∀ e ∈ readerInitializer, e.2.OfUser := by
    rintro e he name h hc
    rcases List.mem_pair.mp he with rfl | rfl
    · exact ⟨0, by cases hc; rfl⟩
    · exact ⟨2, by cases hc; rfl⟩
  have hother : ∀ d ∈ [reader] ++ [], d.handler.bind readerInitializers.of = none := by
    intro d hd
    obtain rfl : d = reader := by simpa using hd
    rfl
  have ha : ∀ a ∈ [("writer", some 3), ("reader", some 4)], Addition.Given a ∧ readerInitializers.init a = none := by
    intro a hm
    rcases List.mem_pair.mp hm with rfl | rfl
    · exact ⟨fun _ => rfl, rfl⟩
    · exact ⟨fun _ => rfl, rfl⟩
  have hl : Holds mangled p ([reader] ++ initializer :: []) := hl
  have h := closed_iff_thrown (ε := Unit) (I := ⟨[("writer", some 3), ("reader", some 4)], none⟩) () none hr hu hl rfl
    hother ha
  exact ⟨p, hr, h⟩

end ChannelInitializer

end Nio.Net
