import NioSocket.Lib.BreadthFirst
import NioSocket.Net.Initializing

/-!
# Trees of initializers

The handlers that an initializer adds may be initializers themselves. The additions are made as elements are taken
from a queue (`settled_queue`): each round of a registration ends at the next initializer, whose own additions come
behind all others. So a new connection is set up generation by generation (`tree_is_set_up`), and a handler is
registered once for each initializer that comes behind it, and once more.
-/

namespace Nio.Net

open DefaultChannelPipeline
open Passing (onCalled onVisits)

section

variable {cls : Classes} (inits : Initializers cls)

/-- What is added is an initializer. -/
def Initializers.init (a : Addition) : Option Initialization := a.handler.bind inits.of

/-- What it adds. -/
def Initializers.additions (a : Addition) : List Addition := ((inits.init a).map (·.additions)).getD []

/-- What is added is an inbound handler. -/
def Addition.inbound (cls : Classes) (a : Addition) : Bool := a.handler.any fun h => (cls.of h).inbound

/-- The contexts that a registration comes to, of the additions in the order they are made in, with their contexts:
from the head over the handlers that are no initializers to each initializer, and in the end to the tail. The contexts
`before` stand in front. -/
def registrations (before : List Nat) : List (Nat × Addition) → List Nat
  | [] => head_ :: (before ++ [tail_])
  | x :: order =>
    if (inits.init x.2).isSome then head_ :: (before ++ [x.1]) ++ registrations before order
    else registrations (if x.2.inbound cls then before ++ [x.1] else before) order

/-- The additions that are no initializers. -/
def remaining (order : List (Nat × Addition)) : List (Nat × Addition) := order.filter fun x => (inits.init x.2).isNone

end

variable {cls : Classes} {as : List Addition} {l : List ChannelHandlerContext}

theorem populated_of_filed (F : List.Forall₂ (Filed cls) as l) : Populated cls l := by
  induction F with
  | nil => simp [Populated]
  | @cons a ctx as l h _ ih =>
    intro ctx' hm
    rcases List.mem_cons.mp hm with rfl | hm
    · refine ⟨h.typed, fun handler hh => ?_⟩
      rw [h.handler, Addition.handler, Option.map_eq_some_iff] at hh
      obtain ⟨object, -, rfl⟩ := hh
      exact ⟨object, rfl⟩
    · exact ih ctx' hm

theorem DefaultChannelPipeline.Populated.append {l' : List ChannelHandlerContext} (P : Populated cls l)
    (P' : Populated cls l') :
    Populated cls (l ++ l') := by
  intro ctx hm
  rcases List.mem_append.mp hm with hm | hm
  · exact P ctx hm
  · exact P' ctx hm

theorem filter_plain_filed (F : List.Forall₂ (Filed cls) as l) :
    (l.map (·.name_)).filter Plain = (as.map Prod.fst).filter Plain := by
  induction F with
  | nil => rfl
  | @cons a ctx as l h _ ih =>
    have hc := congrArg₂ (· ++ ·) h.filter_plain ih
    rwa [← List.filter_append, ← List.filter_append, List.singleton_append, List.singleton_append] at hc

theorem Distinct.sublist {names names' : List String} (h : Distinct names) (hs : names'.Sublist names) :
    Distinct names' :=
  List.Nodup.sublist (hs.filter Plain) h

/-- The names of contexts can be replaced by those of their additions. -/
theorem distinct_filed {names names' : List String} (F : List.Forall₂ (Filed cls) as l) :
    Distinct (names ++ l.map (·.name_) ++ names') ↔ Distinct (names ++ as.map Prod.fst ++ names') := by
  rw [Distinct, Distinct, List.filter_append, List.filter_append, filter_plain_filed F, ← List.filter_append,
    ← List.filter_append]

namespace ChannelInitializer

variable {ε κ : Type} {inits : Initializers cls} {closeCallback : κ}

theorem filter_inboundAt {p p' : DefaultChannelPipeline} {zs : List Nat} (h : zs.map p.context = zs.map p'.context) :
    zs.filter (inboundAt p) = zs.filter (inboundAt p') := by
  apply List.filter_congr
  intro z hz
  rw [inboundAt, inboundAt, List.map_inj_left.mp h z hz]

theorem leaves_of {p : DefaultChannelPipeline} {zs : List Nat} {lz : List ChannelHandlerContext}
    (h : zs.map p.context = lz.map some) (P : Populated cls lz) (hlz : ∀ ctx ∈ lz, ctx.handler.bind inits.of = none) :
    ∀ d ∈ zs, ∃ ctx, p.context d = some ctx ∧ Leaf inits ctx := by
  intro d hd
  have hm : p.context d ∈ lz.map some := h ▸ List.mem_map_of_mem hd
  obtain ⟨ctx, hctx, he⟩ := List.mem_map.mp hm
  exact ⟨ctx, he.symm, (P ctx hctx).1, hlz ctx hctx, (P ctx hctx).2⟩

/-- What comes of the additions `order`, with the contexts `cs`, behind the contexts `zs` without initializers. -/
structure Settled (inits : Initializers cls) (s : Passing ε κ) (zs cs : List Nat) (lz : List ChannelHandlerContext)
    (order : List Addition) (s' : Passing ε κ) : Prop where
  same : s'.called.pipeline.id = s.called.pipeline.id
  chained : ∃ l, Chained cls s'.called.pipeline (zs ++ (remaining inits (cs.zip order)).map Prod.fst) (lz ++ l) ∧
    List.Forall₂ (Filed cls) ((remaining inits (cs.zip order)).map Prod.snd) l
  visits : s'.visits = s.visits ++
    registered (registrations inits (zs.filter (inboundAt s.called.pipeline)) (cs.zip order))

/-- The contexts of a queue whose additions are made in order. -/
def contextsOf (ys : List Nat) (next : Nat) (queue order : List Addition) : List Nat :=
  ys ++ List.range' next (order.length - queue.length)

/-- A handler that is no initializer stays where it is. -/
theorem Settled.leaf {s s' : Passing ε κ} {zs cs : List Nat} {lz : List ChannelHandlerContext} {order : List Addition}
    {x : Addition} {c : Nat} {ctx : ChannelHandlerContext} (hx : inits.init x = none)
    (hc : s.called.pipeline.context c = some ctx) (hf : Filed cls x ctx)
    (h : Settled inits s (zs ++ [c]) cs (lz ++ [ctx]) order s') : Settled inits s zs (c :: cs) lz (x :: order) s' := by
  have hi : inboundAt s.called.pipeline c = x.inbound cls := by
    rw [inboundAt, hc, Option.any_some, hf.typed.1, hf.handler, Addition.inbound]
  obtain ⟨l, C, F⟩ := h.chained
  have hk : remaining inits ((c :: cs).zip (x :: order)) = (c, x) :: remaining inits (cs.zip order) := by
    rw [List.zip_cons_cons, remaining, List.filter_cons_of_pos (by rw [hx]; rfl), ← remaining]
  refine ⟨h.same, ⟨ctx :: l, ?_, ?_⟩, ?_⟩
  · rw [hk]
    simpa using C
  · rw [hk]
    exact .cons hf F
  · rw [h.visits, List.zip_cons_cons, registrations, hx, List.filter_append, ← hi]
    by_cases hk : inboundAt s.called.pipeline c
    · simp [hk]
    · simp [hk]

/-- An initializer is visited, and the registration starts again. -/
theorem Settled.init {s t s' : Passing ε κ} {zs cs : List Nat} {lz : List ChannelHandlerContext} {order : List Addition}
    {x : Addition} {c : Nat} {I : Initialization} (hx : inits.init x = some I)
    (hid : t.called.pipeline.id = s.called.pipeline.id)
    (hf : zs.filter (inboundAt t.called.pipeline) = zs.filter (inboundAt s.called.pipeline))
    (hv : t.visits = s.visits ++ registered (head_ :: (zs.filter (inboundAt s.called.pipeline) ++ [c])))
    (h : Settled inits t zs cs lz order s') : Settled inits s zs (c :: cs) lz (x :: order) s' := by
  obtain ⟨l, C, F⟩ := h.chained
  have hk : remaining inits ((c :: cs).zip (x :: order)) = remaining inits (cs.zip order) := by
    rw [List.zip_cons_cons, remaining, List.filter_cons_of_neg (by rw [hx]; simp), ← remaining]
  refine ⟨h.same.trans hid, ⟨l, ?_, ?_⟩, ?_⟩
  · rwa [hk]
  · rwa [hk]
  · rw [h.visits, hv, hf, List.zip_cons_cons, registrations, hx, Option.isSome_some, if_pos rfl, List.append_assoc]
    simp [registered]

/-- From the head to the tail, over contexts without initializers. -/
theorem invoke_to_tail {s : Passing ε κ} {zs : List Nat} {lz : List ChannelHandlerContext} (closeCallback : κ)
    (C : Chained cls s.called.pipeline zs lz) (P : Populated cls lz) (hlz : ∀ ctx ∈ lz, ctx.handler.bind inits.of = none)
    (fuel : Nat) :
    invokeChannelRegistered inits closeCallback
        (fuel + 1 + (zs.filter (inboundAt s.called.pipeline)).length + 1) head_ s =
      .ok () (s.visited (registered (head_ :: (zs.filter (inboundAt s.called.pipeline) ++ [tail_])))) := by
  rw [invoke_head rfl C P rfl (leaves_of C.contexts P hlz) C.inboundAt_tail]
  have hend := invoke_end inits closeCallback fuel
    (s := s.visited (registered (head_ :: zs.filter (inboundAt s.called.pipeline))))
    C.tail (typed_tailContext s.called.pipeline.id) rfl rfl rfl rfl
  rw [hend, Passing.visited_visited]
  simp [registered]

theorem settled_nil {s : Passing ε κ} {zs : List Nat} {lz : List ChannelHandlerContext} (closeCallback : κ)
    (C : Chained cls s.called.pipeline zs lz) (P : Populated cls lz)
    (hlz : ∀ ctx ∈ lz, ctx.handler.bind inits.of = none) :
    ∃ (N : Nat) (s' : Passing ε κ),
      (∀ fuel, N ≤ fuel → invokeChannelRegistered inits closeCallback fuel head_ s = .ok () s') ∧
        Settled inits s zs [] lz [] s' := by
  refine ⟨(zs.filter (inboundAt s.called.pipeline)).length + 2,
    s.visited (registered (head_ :: (zs.filter (inboundAt s.called.pipeline) ++ [tail_]))), fun fuel hN => ?_, ?_⟩
  · obtain ⟨k, rfl⟩ : ∃ k, fuel = k + 1 + (zs.filter (inboundAt s.called.pipeline)).length + 1 :=
      ⟨fuel - (zs.filter (inboundAt s.called.pipeline)).length - 2, by omega⟩
    exact invoke_to_tail closeCallback C P hlz k
  · refine ⟨rfl, ⟨[], ?_, .nil⟩, rfl⟩
    simpa [remaining] using C

/-- From the head to an initializer, over contexts without one. -/
theorem invoke_to_init {s : Passing ε κ} {zs ys : List Nat} {lz lq : List ChannelHandlerContext} {c : Nat}
    {ctx : ChannelHandlerContext} {I : Initialization} (closeCallback : κ)
    (C : Chained cls s.called.pipeline (zs ++ c :: ys) (lz ++ ctx :: lq)) (hl : zs.length = lz.length)
    (P : Populated cls (lz ++ ctx :: lq)) (hlz : ∀ ctx ∈ lz, ctx.handler.bind inits.of = none)
    (hI : ctx.handler.bind inits.of = some I) :
    ∃ h, ctx.handler = some h ∧ (∀ d ∈ lz, d.handler ≠ some h) ∧ ∀ fuel, invokeChannelRegistered inits closeCallback
        (fuel + 1 + (zs.filter (inboundAt s.called.pipeline)).length + 1) head_ s =
      (initChannel closeCallback cls I h c
          (s.visited (registered (head_ :: (zs.filter (inboundAt s.called.pipeline) ++ [c]))))).bind fun b =>
        if b then invokeChannelRegistered inits closeCallback fuel head_
        else fireChannelRegistered (invokeChannelRegistered inits closeCallback fuel) c := by
  obtain ⟨h, hh, hof⟩ := Option.bind_eq_some_iff.mp hI
  obtain ⟨hty, hu⟩ := P ctx (by simp)
  obtain ⟨object, rfl⟩ := hu h hh
  have hib : (cls.user object).inbound := inits.inbound object (Option.isSome_iff_exists.mpr ⟨I, hof⟩)
  have hin : ctx.inbound_ = true := by rw [hty.1, hh]; exact hib
  obtain ⟨hcz, hcq⟩ := C.contexts_append hl
  obtain ⟨hc, -⟩ := List.cons.inj hcq
  have hcin : inboundAt s.called.pipeline c := by rw [inboundAt, hc]; exact hin
  refine ⟨.user object, hh, fun d hd he => ?_, fun fuel => ?_⟩
  · have hnone := hlz d hd
    rw [he, Option.bind_some, hof] at hnone
    cases hnone
  · have hxs : zs ++ c :: ys ++ [tail_] = zs ++ c :: (ys ++ [tail_]) := by simp
    have hPz : Populated cls lz := fun d hd => P d (List.mem_append_left _ hd)
    have hc' : (s.visited (registered (head_ :: zs.filter (inboundAt s.called.pipeline)))).called.pipeline.context c =
        some ctx := hc
    rw [invoke_head rfl C P hxs (leaves_of hcz hPz hlz) hcin, invoke_init hc' hty hin hh hof, Passing.visited_visited]
    simp [registered]

variable (closeCallback) in
/-- An initializer at the front of the queue. -/
theorem settled_initializer {s : Passing ε κ} {zs ys : List Nat} {lz lq : List ChannelHandlerContext} {c : Nat}
    {ctx : ChannelHandlerContext} {I : Initialization}
    (C : Chained cls s.called.pipeline (zs ++ c :: ys) (lz ++ ctx :: lq)) (hl : zs.length = lz.length)
    (P : Populated cls (lz ++ ctx :: lq)) (hlz : ∀ ctx ∈ lz, ctx.handler.bind inits.of = none)
    (hI : ctx.handler.bind inits.of = some I) (ht : I.throws = none) (ha : ∀ a ∈ I.additions, a.Proper)
    (hn : Distinct ((lz ++ ctx :: lq).map (·.name_) ++ I.additions.map Prod.fst)) :
    ∃ (t : Passing ε κ) (new : List ChannelHandlerContext),
      (∀ fuel, invokeChannelRegistered inits closeCallback
          (fuel + 1 + (zs.filter (inboundAt s.called.pipeline)).length + 1) head_ s =
        invokeChannelRegistered inits closeCallback fuel head_ t) ∧
      t.called.pipeline.id = s.called.pipeline.id ∧
      t.called.pipeline.nextContext = s.called.pipeline.nextContext + I.additions.length ∧
      t.visits = s.visits ++ registered (head_ :: (zs.filter (inboundAt s.called.pipeline) ++ [c])) ∧
      Chained cls t.called.pipeline (zs ++ (ys ++ List.range' s.called.pipeline.nextContext I.additions.length))
        (lz ++ (lq ++ new)) ∧ List.Forall₂ (Filed cls) I.additions new := by
  obtain ⟨h, hh, hne, hpass⟩ := invoke_to_init closeCallback C hl P hlz hI
  obtain ⟨t, new, hadd, hid, hnext, C', F'⟩ := addAll_eq C ha hn
  obtain ⟨t', hinit, hid', hnext', C''⟩ := initChannel_ok closeCallback
    (s := s.visited (registered (head_ :: (zs.filter (inboundAt s.called.pipeline) ++ [c])))) hadd ht C' hl hh hne
  refine ⟨{ s.visited (registered (head_ :: (zs.filter (inboundAt s.called.pipeline) ++ [c]))) with called := t' },
    new, fun fuel => ?_, hid'.trans hid, hnext'.trans hnext, rfl, C'', F'⟩
  rw [hpass, hinit, Outcome.bind_ok, if_pos rfl]

variable (closeCallback) in
/-- What a queue of contexts comes to. -/
theorem settled_queue {queue order : List Addition} (hq : Queued inits.additions queue order) {s : Passing ε κ}
    {zs ys : List Nat} {lz lq : List ChannelHandlerContext}
    (C : Chained cls s.called.pipeline (zs ++ ys) (lz ++ lq)) (hl : zs.length = lz.length) (P : Populated cls lz)
    (hlz : ∀ ctx ∈ lz, ctx.handler.bind inits.of = none) (F : List.Forall₂ (Filed cls) queue lq)
    (hn : Distinct (lz.map (·.name_) ++ order.map Prod.fst)) (ha : ∀ a ∈ order.drop queue.length, a.Proper)
    (ht : ∀ a ∈ order, ∀ I, inits.init a = some I → I.throws = none) :
    ∃ (N : Nat) (s' : Passing ε κ),
      (∀ fuel, N ≤ fuel → invokeChannelRegistered inits closeCallback fuel head_ s = .ok () s') ∧
        Settled inits s zs (contextsOf ys s.called.pipeline.nextContext queue order) lz order s' := by
  induction hq generalizing s zs ys lz lq with
  | nil =>
    cases F
    have hys : ys = [] := by
      have := C.length_eq
      simp only [List.length_append, List.append_nil] at this
      exact List.length_eq_zero_iff.mp (by omega)
    subst hys
    rw [List.append_nil, List.append_nil] at C
    exact settled_nil closeCallback C P hlz
  | @cons x queue order hq ih =>
    obtain ⟨hcz, hcq⟩ := C.contexts_append hl
    obtain ⟨ctx, lq, hf, Fq, rfl⟩ : ∃ ctx lq', Filed cls x ctx ∧ List.Forall₂ (Filed cls) queue lq' ∧
        lq = ctx :: lq' := by
      cases F with
      | cons hf Fq => exact ⟨_, _, hf, Fq, rfl⟩
    obtain ⟨c, ys, rfl⟩ : ∃ c ys', ys = c :: ys' := by
      cases ys with
      | nil => cases hcq
      | cons c ys => exact ⟨c, ys, rfl⟩
    obtain ⟨hc, hcq⟩ := List.cons.inj hcq
    have hcs : contextsOf (c :: ys) s.called.pipeline.nextContext (x :: queue) (x :: order) =
        c :: contextsOf ys s.called.pipeline.nextContext queue order := by
      simp [contextsOf]
    rw [hcs]
    rw [List.length_cons, List.drop_succ_cons] at ha
    have ht' : ∀ a ∈ order, ∀ I, inits.init a = some I → I.throws = none := fun a hm => ht a (List.mem_cons_of_mem x hm)
    have hnames : Distinct (lz.map (·.name_) ++ [ctx.name_] ++ order.map Prod.fst) := by
      rw [show [ctx.name_] = [ctx].map (·.name_) from rfl, distinct_filed (.cons hf .nil)]
      simpa using hn
    have hPx : Populated cls (lz ++ [ctx]) := P.append (populated_of_filed (.cons hf .nil))
    cases hx : inits.init x with
    | none =>
      have hadd : inits.additions x = [] := by simp [Initializers.additions, hx]
      rw [hadd, List.append_nil] at ih
      have hlz' : ∀ d ∈ lz ++ [ctx], d.handler.bind inits.of = none := by
        intro d hd
        rcases List.mem_append.mp hd with hd | hd
        · exact hlz d hd
        · rw [List.mem_singleton.mp hd, hf.handler]
          exact hx
      have C' : Chained cls s.called.pipeline (zs ++ [c] ++ ys) (lz ++ [ctx] ++ lq) := by simpa using C
      obtain ⟨N, s', hrun, S⟩ := ih C' (by simp [hl]) hPx hlz' Fq (by simpa using hnames) ha ht'
      exact ⟨N, s', hrun, S.leaf hx hc hf⟩
    | some I =>
      have hadd : inits.additions x = I.additions := by simp [Initializers.additions, hx]
      rw [hadd] at ih hq
      obtain ⟨rest, hrest⟩ := hq.isPrefix
      have hdrop : order.drop queue.length = I.additions ++ rest := by
        rw [← hrest, List.append_assoc, List.drop_left]
      rw [hdrop] at ha
      have hn' : Distinct ((lz ++ ctx :: lq).map (·.name_) ++ I.additions.map Prod.fst) := by
        have hsub : Distinct (lz.map (·.name_) ++ [ctx.name_] ++ queue.map Prod.fst ++ I.additions.map Prod.fst) := by
          apply hnames.sublist
          rw [← hrest, List.map_append, List.map_append, ← List.append_assoc, ← List.append_assoc]
          exact List.sublist_append_left ..
        simpa using (distinct_filed Fq).mpr hsub
      have hPq : Populated cls (lz ++ ctx :: lq) := by simpa using hPx.append (populated_of_filed Fq)
      have hI : ctx.handler.bind inits.of = some I := by
        rw [hf.handler]
        exact hx
      obtain ⟨t, new, hpass, hid, hnext, hv, C', F'⟩ := settled_initializer closeCallback C hl hPq hlz
        hI (ht x List.mem_cons_self I hx) (fun a hm => ha a (List.mem_append_left rest hm)) hn'
      have Fq' : List.Forall₂ (Filed cls) (queue ++ I.additions) (lq ++ new) := List.rel_append Fq F'
      have hno : Distinct (lz.map (·.name_) ++ order.map Prod.fst) :=
        hn.sublist ((List.sublist_cons_self x.1 (order.map Prod.fst)).append_left _)
      have har : ∀ a ∈ order.drop (queue ++ I.additions).length, a.Proper := by
        rw [← hrest, List.drop_left]
        exact fun a hm => ha a (List.mem_append_right _ hm)
      obtain ⟨N, s', hrun, S⟩ := ih C' hl P hlz Fq' hno har ht'
      have hcs' : contextsOf (ys ++ List.range' s.called.pipeline.nextContext I.additions.length)
          t.called.pipeline.nextContext (queue ++ I.additions) order =
          contextsOf ys s.called.pipeline.nextContext queue order := by
        have hlen : order.length - queue.length =
            I.additions.length + (order.length - (queue ++ I.additions).length) := by
          have := congrArg List.length hrest
          simp only [List.length_append] at this ⊢
          omega
        rw [contextsOf, contextsOf, hlen, hnext, List.append_assoc, List.range'_append_1]
      rw [hcs'] at S
      refine ⟨N + (zs.filter (inboundAt s.called.pipeline)).length + 2, s', fun fuel hN => ?_, S.init hx hid ?_ hv⟩
      · obtain ⟨k, rfl⟩ : ∃ k, fuel = k + 1 + (zs.filter (inboundAt s.called.pipeline)).length + 1 :=
          ⟨fuel - (zs.filter (inboundAt s.called.pipeline)).length - 2, by omega⟩
        rw [hpass]
        exact hrun k (by omega)
      · exact filter_inboundAt ((C'.contexts_append hl).1.trans hcz.symm)

/-- A handler in front is registered in each round. -/
theorem count_registrations_before {order : List (Nat × Addition)} {before : List Nat} {c : Nat}
    (ho : ∀ x ∈ order, x.1 ≠ c) (hh : head_ ≠ c) (ht : tail_ ≠ c) :
    (registrations inits before order).count c =
      before.count c * (1 + order.countP fun x => (inits.init x.2).isSome) := by
  induction order generalizing before with
  | nil => simp [registrations, hh, ht]
  | cons x order ih =>
    have ho' : ∀ y ∈ order, y.1 ≠ c := fun y hy => ho y (List.mem_cons_of_mem x hy)
    have hx : x.1 ≠ c := ho x List.mem_cons_self
    rw [registrations]
    by_cases hi : (inits.init x.2).isSome
    · have hc : (head_ :: (before ++ [x.1])).count c = before.count c := by simp [hh, hx]
      rw [if_pos hi, List.count_append, ih ho', hc, List.countP_cons, if_pos hi, ← Nat.add_assoc, Nat.mul_succ,
        Nat.add_comm]
    · rw [if_neg hi, ih ho', List.countP_cons, if_neg hi, Nat.add_zero]
      split
      · simp [hx]
      · rfl

/-- A handler is registered once, and once more for each initializer behind it. -/
theorem count_registrations {order behind : List (Nat × Addition)} {before : List Nat} {c : Nat} {a : Addition}
    (hn : ((order ++ (c, a) :: behind).map Prod.fst).Nodup) (hb : c ∉ before) (hh : head_ ≠ c) (ht : tail_ ≠ c)
    (ha : inits.init a = none) (hi : a.inbound cls) :
    (registrations inits before (order ++ (c, a) :: behind)).count c =
      1 + behind.countP fun x => (inits.init x.2).isSome := by
  induction order generalizing before with
  | nil =>
    have hc : ∀ x ∈ behind, x.1 ≠ c := by
      rintro x hx rfl
      rw [List.nil_append, List.map_cons, List.nodup_cons] at hn
      exact hn.1 (List.mem_map.mpr ⟨x, hx, rfl⟩)
    rw [List.nil_append, registrations, ha, Option.isSome_none, if_neg Bool.false_ne_true, if_pos hi,
      count_registrations_before hc hh ht, List.count_append, List.count_eq_zero_of_not_mem hb]
    simp
  | cons x order ih =>
    rw [List.cons_append, List.map_cons, List.nodup_cons] at hn
    have hx : x.1 ≠ c := by
      rintro rfl
      exact hn.1 (by simp)
    rw [List.cons_append, registrations]
    by_cases hk : (inits.init x.2).isSome
    · rw [if_pos hk, List.count_append, ih hn.2 hb]
      simp [hh, hx, List.count_eq_zero_of_not_mem hb]
    · rw [if_neg hk]
      apply ih hn.2
      split
      · simpa [hb] using hx.symm
      · exact hb

/-- The additions with the contexts that are made for them, in a pipeline that is new. -/
def made (order : List Addition) : List (Nat × Addition) := (List.range' 2 order.length).zip order

/-- A connection whose pipeline the additions `order` have filled. -/
structure SetUp (inits : Initializers cls) (order : List Addition) (s : Passing ε κ) : Prop where
  /-- From the head to the tail, the pipeline has the handlers that are no initializers. -/
  chained : ∃ l, Chained cls s.called.pipeline ((remaining inits (made order)).map Prod.fst) l ∧
    List.Forall₂ (Filed cls) ((remaining inits (made order)).map Prod.snd) l
  visits : s.visits = registered (registrations inits [] (made order)) ++
    (head_ :: (((remaining inits (made order)).filter fun x => x.2.inbound cls).map Prod.fst ++ [tail_])).map
      (.called .channelActive)
  count : ∀ before c a behind, made order = before ++ (c, a) :: behind → inits.init a = none → a.inbound cls →
    (registrations inits [] (made order)).count c = 1 + behind.countP fun x => (inits.init x.2).isSome

theorem map_fst_made (order : List Addition) : (made order).map Prod.fst = List.range' 2 order.length := by
  rw [made, List.map_fst_zip]
  simp

theorem count_made {order : List Addition} {before behind : List (Nat × Addition)} {c : Nat} {a : Addition}
    (h : made order = before ++ (c, a) :: behind) (ha : inits.init a = none) (hi : a.inbound cls) :
    (registrations inits [] (made order)).count c = 1 + behind.countP fun x => (inits.init x.2).isSome := by
  have hm := map_fst_made order
  have hc : 2 ≤ c := by
    have hmem : c ∈ (made order).map Prod.fst := by
      rw [h]
      simp
    rw [hm, List.mem_range'_1] at hmem
    exact hmem.1
  rw [h] at hm ⊢
  apply count_registrations
  · rw [hm]
    exact List.nodup_range'
  · exact List.not_mem_nil
  · exact (Nat.lt_of_lt_of_le (by decide) hc).ne
  · exact (Nat.lt_of_lt_of_le (by decide) hc).ne
  · exact ha
  · exact hi

/-- The event is passed over all inbound handlers of a pipeline. -/
theorem fire_active {s : Passing ε κ} {xs : List Nat} {l : List ChannelHandlerContext}
    (C : Chained cls s.called.pipeline xs l) (P : Populated cls l) :
    onVisits (fun p => fire cls p (.calm ε) .channelActive) s =
      .ok () (s.visited ((head_ :: (xs.filter (inboundAt s.called.pipeline) ++ [tail_])).map (.called .channelActive))) := by
  apply Passing.onVisits_ok
  have hk : takes s.called.pipeline (HandlerEvent.channelActive : HandlerEvent ε κ) = inboundAt s.called.pipeline :=
    takes_inbound rfl
  rw [C.fire_inbound P rfl, trace_eq fun c _ _ => thrownAt_of_not_read rfl c, hk]
  simp [HandlerEvent.returns, C.inboundAt_head, C.inboundAt_tail]

theorem filter_filed {p : DefaultChannelPipeline} {rs : List (Nat × Addition)} {l : List ChannelHandlerContext}
    (h : (rs.map Prod.fst).map p.context = l.map some) (F : List.Forall₂ (Filed cls) (rs.map Prod.snd) l) :
    (rs.map Prod.fst).filter (inboundAt p) = (rs.filter fun x => x.2.inbound cls).map Prod.fst := by
  induction rs generalizing l with
  | nil => rfl
  | cons x rs ih =>
    cases F with
    | cons hf F =>
      obtain ⟨hc, h⟩ := List.cons.inj h
      have hi : inboundAt p x.1 = x.2.inbound cls := by
        rw [inboundAt, hc, Option.any_some, hf.typed.1, hf.handler, Addition.inbound]
      rw [List.map_cons, List.filter_cons, List.filter_cons, hi, ih h F]
      split
      · rfl
      · rfl

/-- The handlers that are added to a new connection, by whatever tree of initializers, come to stand in its pipeline
generation by generation, and each initializer has gone. A handler is registered once, and once more for each initializer
of the tree that comes behind it, and it is activated once, all before the connection first reads. -/
theorem tree_is_set_up {d handler : Nat} (closeCallback : κ) (pipeline : Nat)
    (nameCaches : Option (String → Option String))
    (hd : generation inits.additions d [("", some handler)] = [])
    (ha : ∀ a ∈ breadthFirst inits.additions d [("", some handler)], a.Proper)
    (hn : Distinct ((breadthFirst inits.additions d [("", some handler)]).map Prod.fst))
    (ht : ∀ a ∈ breadthFirst inits.additions d [("", some handler)], ∀ I, inits.init a = some I → I.throws = none) :
    ∃ (N : Nat) (s : Passing ε κ),
      (∀ fuel, N ≤ fuel →
        channelRead inits closeCallback fuel handler ⟨⟨nameCaches, new cls pipeline⟩, []⟩ = .ok () s) ∧
      SetUp inits (breadthFirst inits.additions d [("", some handler)]) s := by
  generalize ho : breadthFirst inits.additions d [("", some handler)] = order at ha hn ht ⊢
  have hq : Queued inits.additions [("", some handler)] order := ho ▸ queued_breadthFirst hd
  obtain ⟨t, ctx, hadd, -, hnext, C, hf⟩ := Called.addLast_proper (s := ⟨nameCaches, new cls pipeline⟩)
    (chained_new cls pipeline) (a := ("", some handler)) rfl (fun h => by cases h)
  have C : Chained cls t.pipeline ([] ++ [2]) ([] ++ [ctx]) := C
  obtain ⟨N, s, hrun, -, ⟨l, C', F⟩, hv⟩ := settled_queue (ε := ε) closeCallback (s := ⟨t, []⟩) hq C rfl
    (fun _ h => absurd h List.not_mem_nil) (fun _ h => absurd h List.not_mem_nil) (.cons hf .nil) (by simpa using hn)
    (fun a hm => ha a (List.mem_of_mem_drop hm)) ht
  have hcs : (contextsOf [2] t.pipeline.nextContext [("", some handler)] order).zip order = made order := by
    obtain ⟨rest, rfl⟩ := hq.isPrefix
    rw [hnext, made]
    simp [contextsOf, new, List.range'_succ]
  rw [show (⟨t, []⟩ : Passing ε κ).called = t from rfl, hcs] at C' F hv
  refine ⟨N, s.visited ((head_ :: (((remaining inits (made order)).map Prod.fst).filter
    (inboundAt s.called.pipeline) ++ [tail_])).map (.called .channelActive)), fun fuel hN => ?_, ⟨l, C', F⟩, ?_,
    fun before c a behind h hna hi => count_made h hna hi⟩
  · have hreg : initAndRegister inits closeCallback fuel handler ⟨⟨nameCaches, new cls pipeline⟩, []⟩ = .ok () s := by
      rw [initAndRegister, Method.bind_apply, Passing.onCalled_ok hadd]
      exact hrun fuel hN
    rw [channelRead, Method.bind_apply, hreg]
    exact fire_active C' (populated_of_filed F)
  · rw [Passing.visited_visits, hv, filter_filed C'.contexts F]
    rfl

/-- A server whose initializer adds a decoder and a second initializer, which adds an encoder and a handler. -/
def serverClasses : Classes where
  user object := if object = 3 then ⟨"Encoder", false, true⟩ else ⟨"Handler", true, false⟩
  headContext := mangled.headContext
  tailContext := mangled.tailContext

/-- Objects 0 and 2 are the initializers. -/
def serverInitializers : Initializers serverClasses where
  user object :=
    if object = 0 then some ⟨[("LengthFieldBasedFrameDecoder", some 1), ("", some 2)], none⟩
    else if object = 2 then some ⟨[("", some 3), ("handler1", some 4)], none⟩
    else none
  inbound object h := by
    have hne : object ≠ 3 := by
      rintro rfl
      simp at h
    simp [serverClasses, hne]

theorem tree_is_set_up_server : ∃ (N : Nat) (s : Passing Unit Unit),
    (∀ fuel, N ≤ fuel →
      channelRead serverInitializers () fuel 0 ⟨⟨none, new serverClasses 0⟩, []⟩ = .ok () s) ∧
    SetUp serverInitializers [("", some 0), ("LengthFieldBasedFrameDecoder", some 1), ("", some 2), ("", some 3),
      ("handler1", some 4)] s := by
  have ht : ∀ a I, serverInitializers.init a = some I → I.throws = none := by
    rintro ⟨name, object⟩ I h
    obtain ⟨h', hh, hI⟩ := Option.bind_eq_some_iff.mp h
    obtain ⟨object, -, rfl⟩ := Option.map_eq_some_iff.mp hh
    simp only [Initializers.of, serverInitializers] at hI
    split at hI
    · cases hI
      rfl
    · split at hI
      · cases hI
        rfl
      · cases hI
  exact tree_is_set_up (d := 3) () 0 none (by decide +kernel) (by decide +kernel) (by decide +kernel) fun a _ => ht a

end ChannelInitializer

end Nio.Net
