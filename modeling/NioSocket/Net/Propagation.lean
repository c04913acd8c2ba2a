import NioSocket.Net.PipelineRun

/-!
# Events in a channel pipeline

What the callbacks of the handlers are called with, and in which order, when an event is fired on a
pipeline. An event is passed on along `next` to the contexts with an inbound handler, or along `prev` to
those with an outbound one; an exception is passed on along `next` to any context, where a handler that
is not inbound lets it drop. The contexts are visited in the order of the chain (`fire_inbound`,
`fire_outbound`); `propagation_iff` says for which events, and behind which handlers, each gets what it should.
-/

namespace Nio.Net

/-- The callbacks of `ChannelInboundHandler` and `ChannelOutboundHandler`, with what they are passed. -/
inductive HandlerEvent (ε κ : Type)
  | channelRegistered
  | channelUnregistered
  | channelActive
  | channelInactive
  | channelRead (event : ε)
  | write (event : ε) (callback : κ)
  | close (callback : κ)

namespace HandlerEvent

variable {ε κ : Type}

/-- The callback is one of `ChannelInboundHandler`. -/
def isInbound : HandlerEvent ε κ → Bool
  | write .. | close _ => false
  | _ => true

/-- The event is a read. -/
def isRead : HandlerEvent ε κ → Bool
  | channelRead _ => true
  | _ => false

/-- `fireChannelUnregistered` of the pipeline flows off its end without a value. -/
def returns : HandlerEvent ε κ → Bool
  | channelUnregistered => false
  | _ => true

/-- The next context that `findContextInbound` or `findContextOutbound` looks at. -/
def link (ev : HandlerEvent ε κ) (p : DefaultChannelPipeline) : Nat → Option Nat :=
  if ev.isInbound then p.next else p.prev

/-- What it looks for. -/
def flag (ev : HandlerEvent ε κ) (ctx : ChannelHandlerContext) : Bool :=
  if ev.isInbound then ctx.inbound_ else ctx.outbound_

/-- The interface that the handler is cast to. -/
def cast (ev : HandlerEvent ε κ) (c : HandlerClass) : Bool := if ev.isInbound then c.inbound else c.outbound

/-- The callback does not pass the event on. -/
def ends (ev : HandlerEvent ε κ) : ChannelHandler → Bool
  | .user _ => false
  | .headContext _ => !ev.isInbound
  | .tailContext _ => true

end HandlerEvent

/-- A callback of the handler of a context is called. -/
inductive Visit (ε κ : Type)
  | called (ev : HandlerEvent ε κ) (ctx : Nat)
  | exceptionCaught (what : String) (ctx : Nat)

/-- What the callbacks of the objects of an application do but pass on what they get: whether `channelRead` throws,
and whether `exceptionCaught` forwards. -/
structure HandlerCallbacks (ε : Type) where
  throws : Nat → ε → Option String
  forwards : Nat → Bool

namespace HandlerCallbacks

variable {ε κ : Type}

/-- What a handler throws at an event. -/
def thrown (b : HandlerCallbacks ε) : ChannelHandler → HandlerEvent ε κ → Option String
  | .user id, .channelRead event => b.throws id event
  | _, _ => none

/-- The handler passes an event on. -/
def passes (b : HandlerCallbacks ε) : ChannelHandler → Bool
  | .user id => b.forwards id
  | .headContext _ => true
  | .tailContext _ => false

end HandlerCallbacks

namespace DefaultChannelPipeline

section

variable {ε κ : Type} (cls : Classes) (p : DefaultChannelPipeline) (b : HandlerCallbacks ε) (ev : HandlerEvent ε κ)

/-- The loops of `findContextInbound` and `findContextOutbound`, in `fuel` rounds. -/
def findLoop : Nat → Nat → Method (List (Visit ε κ)) (Option Nat)
  | 0, _ => fun _ => .hang
  | fuel + 1, c =>
    match ev.link p c with
    | none => pure none
    | some d =>
      match p.context d with
      | none => fun _ => .ub
      | some ctx => if ev.flag ctx then pure (some d) else findLoop fuel d

/-- `findContextInbound()` or `findContextOutbound()`, from a context on. -/
def findContext (c : Nat) : Method (List (Visit ε κ)) (Option Nat) := findLoop p ev (p.nextContext + 1) c

/-- The handler of the context, `dynamic_cast` to `kind`. -/
def castHandler (kind : HandlerClass → Bool) (c : Nat) : Method (List (Visit ε κ)) (Option ChannelHandler) :=
  match p.context c with
  | none => fun _ => .ub
  | some ctx => pure (ctx.handler.filter fun h => kind (cls.of h))

/-- A callback is called. -/
def visit (v : Visit ε κ) : Method (List (Visit ε κ)) Unit := .modify (· ++ [v])

/-- `invokeExceptionCaught(cause)`, with `fireExceptionCaught` of those that forward, in `fuel` calls. -/
def invokeExceptionCaught (what : String) : Nat → Nat → Method (List (Visit ε κ)) Unit
  | 0, _ => fun _ => .hang
  | fuel + 1, c => do
    match ← castHandler cls p (·.inbound) c with
    | none => pure ()
    | some h =>
      visit (.exceptionCaught what c)
      if b.passes h then
        match p.next c with
        | some d => invokeExceptionCaught what fuel d
        | none => pure ()

/-- `try { m } catch (const std::exception &ex) { caught(ex) }`. -/
def tryCatch (m : Method (List (Visit ε κ)) Unit) (caught : String → Method (List (Visit ε κ)) Unit) :
    Method (List (Visit ε κ)) Unit := fun s =>
  match m s with
  | .throw what s' => caught what s'
  | o => o

/-- What `invokeChannelRead` does about an exception of `m`. -/
def guarded (c : Nat) (m : Method (List (Visit ε κ)) Unit) : Method (List (Visit ε κ)) Unit :=
  if ev.isRead then tryCatch m fun what => invokeExceptionCaught cls p b what (p.nextContext + 1) c else m

/-- The `fire…`, `write` and `close` of a context, with the `invoke…` of the one that is found. Before
`invokeChannelRead` there is no check for null. -/
def passOn (invoked : Nat → Method (List (Visit ε κ)) Unit) (c : Nat) : Method (List (Visit ε κ)) Unit := do
  match ← findContext p ev c with
  | some d => invoked d
  | none => if ev.isRead then fun _ => .ub else pure ()

/-- `invokeChannelRegistered()` to `invokeClose(callback)`, with the callbacks that pass the event on, in `fuel`
calls. -/
def invoke : Nat → Nat → Method (List (Visit ε κ)) Unit
  | 0, _ => fun _ => .hang
  | fuel + 1, c => guarded cls p b ev c do
    match ← castHandler cls p ev.cast c with
    | none => pure ()
    | some h =>
      visit (.called ev c)
      match b.thrown h ev with
      | some what => .throw what
      | none => if ev.ends h then pure () else passOn p ev (invoke fuel) c

/-- The `fire…` of the pipeline, which start at the head, and its `write` and `close`, which start at the tail. -/
def fire : Method (List (Visit ε κ)) Unit :=
  if ev.isInbound then do
    invoke cls p b ev (p.nextContext + 1) head_
    if ev.returns then pure () else fun _ => .ub
  else passOn p ev (invoke cls p b ev (p.nextContext + 1)) tail_

end

/-! ## What is visited -/

section

variable {ε κ : Type} (p : DefaultChannelPipeline) (b : HandlerCallbacks ε) (ev : HandlerEvent ε κ)

/-- The context is one that the event is passed to. -/
def takes (c : Nat) : Bool := (p.context c).any ev.flag

/-- The context is there, and inbound. -/
def inboundAt (c : Nat) : Bool := (p.context c).any (·.inbound_)

/-- The context is there, and outbound. -/
def outboundAt (c : Nat) : Bool := (p.context c).any (·.outbound_)

/-- What the handler of the context throws. -/
def thrownAt (c : Nat) : Option String := ((p.context c).bind (·.handler)).bind (b.thrown · ev)

/-- The handler of the context does not pass the event on. -/
def endsAt (c : Nat) : Bool := ((p.context c).bind (·.handler)).any ev.ends

/-- The handler of the context forwards an exception. -/
def passesAt (c : Nat) : Bool := ((p.context c).bind (·.handler)).any b.passes

/-- An exception, from its first context on. -/
def exceptionTrace (what : String) : List Nat → List (Visit ε κ)
  | [] => []
  | c :: cs =>
    if inboundAt p c then .exceptionCaught what c :: if passesAt p b c then exceptionTrace what cs else []
    else []

/-- An event, over the contexts from the first that it may be passed to on. -/
def trace : List Nat → List (Visit ε κ)
  | [] => []
  | c :: cs =>
    if takes p ev c then
      .called ev c ::
        match thrownAt p b ev c with
        | some what => exceptionTrace p b what (c :: cs)
        | none => trace cs
    else trace cs

end

/-- The flags of a context are the interfaces of its handler. -/
def Typed (cls : Classes) (ctx : ChannelHandlerContext) : Prop :=
  ctx.inbound_ = ctx.handler.any (fun h => (cls.of h).inbound) ∧
    ctx.outbound_ = ctx.handler.any fun h => (cls.of h).outbound

variable {ε κ : Type} {cls : Classes} {p : DefaultChannelPipeline} {b : HandlerCallbacks ε} {ev : HandlerEvent ε κ} {c : Nat}
  {cs : List Nat} {ctx : ChannelHandlerContext} {what : String} {fuel : Nat} {vs : List (Visit ε κ)}
  {back : Nat → Option Nat} {q : Option Nat}

theorem typed_new (name : String) (handler : Option ChannelHandler) : Typed cls (.new cls name handler) := ⟨rfl, rfl⟩

theorem typed_headContext (id : Nat) : Typed cls (headContext cls id) := ⟨rfl, rfl⟩

theorem typed_tailContext (id : Nat) : Typed cls (tailContext cls id) := ⟨rfl, rfl⟩

theorem Typed.flag_eq (h : Typed cls ctx) (ev : HandlerEvent ε κ) :
    ev.flag ctx = ctx.handler.any fun h => ev.cast (cls.of h) := by
  unfold HandlerEvent.flag HandlerEvent.cast
  split
  · exact h.1
  · exact h.2

theorem castHandler_none {kind : HandlerClass → Bool} (hc : p.context c = some ctx)
    (hk : ctx.handler.any (fun h => kind (cls.of h)) = false) : castHandler cls p kind c vs = .ok none vs := by
  cases hh : ctx.handler with
  | none => simp [castHandler, hc, hh]
  | some h => simp_all [castHandler, Option.filter]

theorem castHandler_some (kind : HandlerClass → Bool) (vs : List (Visit ε κ)) (hc : p.context c = some ctx)
    (hk : ctx.handler.any (fun h => kind (cls.of h)) = true) :
    ∃ h, ctx.handler = some h ∧ castHandler cls p kind c vs = .ok (some h) vs := by
  obtain ⟨h, hh, hk⟩ := (Option.any_eq_true _ _).mp hk
  exact ⟨h, hh, by simp [castHandler, hc, hh, Option.filter, hk]⟩

/-! ## Exceptions -/

theorem invokeExceptionCaught_drop (hc : p.context c = some ctx) (hty : Typed cls ctx) (hi : ctx.inbound_ = false) :
    invokeExceptionCaught cls p b what (fuel + 1) c vs = .ok () vs := by
  rw [invokeExceptionCaught, Method.bind_apply, castHandler_none hc (hty.1.symm.trans hi)]
  rfl

theorem invokeExceptionCaught_visit (hc : p.context c = some ctx) (hty : Typed cls ctx) (hi : ctx.inbound_ = true) :
    invokeExceptionCaught cls p b what (fuel + 1) c vs =
      (if passesAt p b c then
        match p.next c with
        | some d => invokeExceptionCaught cls p b what fuel d
        | none => pure ()
      else pure ()) (vs ++ [Visit.exceptionCaught what c]) := by
  obtain ⟨h, hh, hcast⟩ := castHandler_some (·.inbound) vs hc (hty.1.symm.trans hi)
  rw [invokeExceptionCaught, Method.bind_apply, hcast, passesAt, hc, Option.bind_some, hh, Option.any_some]
  rfl

theorem invokeExceptionCaught_eq (e : Ended p.next back q (some c) (c :: cs))
    (ht : ∀ d ∈ c :: cs, ∃ ctx, p.context d = some ctx ∧ Typed cls ctx) (hf : cs.length < fuel) :
    invokeExceptionCaught cls p b what fuel c vs = .ok () (vs ++ exceptionTrace p b what (c :: cs)) := by
  induction cs generalizing c q fuel vs with
  | nil =>
    obtain ⟨fuel, rfl⟩ : ∃ n, fuel = n + 1 := ⟨fuel - 1, by simp at hf; omega⟩
    obtain ⟨ctx, hctx, hty⟩ := ht c (by simp)
    have hn : p.next c = none := e.2.2
    cases hi : ctx.inbound_ with
    | false => simp [invokeExceptionCaught_drop hctx hty hi, exceptionTrace, inboundAt, hctx, hi]
    | true =>
      rw [invokeExceptionCaught_visit hctx hty hi, hn]
      simp [exceptionTrace, inboundAt, hctx, hi]
  | cons d cs ih =>
    obtain ⟨fuel, rfl⟩ : ∃ n, fuel = n + 1 := ⟨fuel - 1, by simp at hf; omega⟩
    obtain ⟨ctx, hctx, hty⟩ := ht c (by simp)
    obtain ⟨-, -, h3⟩ := e
    have hn : p.next c = some d := h3.1
    rw [hn] at h3
    rw [exceptionTrace, inboundAt, hctx, Option.any_some]
    cases hi : ctx.inbound_ with
    | false => simp [invokeExceptionCaught_drop hctx hty hi]
    | true =>
      rw [invokeExceptionCaught_visit hctx hty hi, hn]
      by_cases hp : passesAt p b c
      · have hr : invokeExceptionCaught cls p b what fuel d (vs ++ [Visit.exceptionCaught what c]) = _ :=
          ih h3 (fun d hd => ht d (List.mem_cons_of_mem _ hd)) (by simpa using hf)
        simp only [hp, if_true, hr, List.append_assoc, List.singleton_append]
      · simp [hp]

/-! ## Events -/

theorem isRead_of_thrown {h : ChannelHandler} (ht : b.thrown h ev = some what) : ev.isRead := by
  cases h with
  | user id =>
    cases ev with
    | channelRead event => rfl
    | channelRegistered | channelUnregistered | channelActive | channelInactive | write | close => cases ht
  | headContext | tailContext => cases ht

theorem link_of_isRead (hr : ev.isRead) : ev.link p = p.next := by
  cases ev with
  | channelRead event => rfl
  | channelRegistered | channelUnregistered | channelActive | channelInactive | write | close => cases hr

theorem findLoop_eq (e : Ended (ev.link p) back q (ev.link p c) cs) (hs : ∀ d ∈ cs, (p.context d).isSome)
    (hf : cs.length < fuel) : findLoop p ev fuel c vs = .ok (cs.find? (takes p ev)) vs := by
  induction cs generalizing c q fuel with
  | nil =>
    obtain ⟨fuel, rfl⟩ : ∃ n, fuel = n + 1 := ⟨fuel - 1, by simp at hf; omega⟩
    have hn : ev.link p c = none := e
    simp [findLoop, hn]
  | cons d cs ih =>
    obtain ⟨fuel, rfl⟩ : ∃ n, fuel = n + 1 := ⟨fuel - 1, by simp at hf; omega⟩
    obtain ⟨hn, -, h3⟩ := e
    obtain ⟨ctx, hctx⟩ := Option.isSome_iff_exists.mp (hs d (by simp))
    have hk : takes p ev d = ev.flag ctx := by simp [takes, hctx]
    simp only [findLoop, hn, hctx, List.find?_cons, hk]
    cases ev.flag ctx with
    | true => rfl
    | false =>
      apply ih h3
      · intro d' hd
        exact hs d' (List.mem_cons_of_mem _ hd)
      · simpa using hf

/-- A context that the event is passed to. -/
theorem invoke_eq (hk : takes p ev c) (e : Ended (ev.link p) back q (some c) (c :: cs))
    (ht : ∀ d ∈ c :: cs, ∃ ctx, p.context d = some ctx ∧ Typed cls ctx) (hl : cs.length ≤ p.nextContext)
    (hp : ∀ vs, (if endsAt p ev c then pure () else passOn p ev (invoke cls p b ev fuel) c) vs =
      .ok () (vs ++ trace p b ev cs)) :
    invoke cls p b ev (fuel + 1) c vs = .ok () (vs ++ trace p b ev (c :: cs)) := by
  obtain ⟨ctx, hctx, hty⟩ := ht c (by simp)
  have hflag : ev.flag ctx := by simpa [takes, hctx] using hk
  obtain ⟨h, hh, hcast⟩ := castHandler_some ev.cast vs hctx ((hty.flag_eq ev).symm.trans hflag)
  have hthrown : thrownAt p b ev c = b.thrown h ev := by simp [thrownAt, hctx, hh]
  have hends : endsAt p ev c = ev.ends h := by simp [endsAt, hctx, hh]
  rw [invoke, guarded, trace, if_pos hk, hthrown]
  cases hth : b.thrown h ev with
  | none =>
    have hb := hp (vs ++ [Visit.called ev c])
    rw [hends, List.append_assoc, List.singleton_append] at hb
    simp only [Method.ite_apply, tryCatch, Method.bind_apply, hcast, Outcome.bind_ok, visit, Method.modify_apply, hth]
    rw [← Method.ite_apply, hb, ite_self]
  | some what =>
    have hr := isRead_of_thrown hth
    rw [link_of_isRead hr] at e
    have hx : invokeExceptionCaught cls p b what (p.nextContext + 1) c (vs ++ [Visit.called ev c]) = _ :=
      invokeExceptionCaught_eq e ht (Nat.lt_succ_of_le hl)
    simp only [if_pos hr, tryCatch, Method.bind_apply, hcast, Outcome.bind_ok, visit, Method.modify_apply, hth,
      Method.throw_apply, hx, List.append_assoc, List.singleton_append]

theorem findContext_eq (e : Ended (ev.link p) back q (ev.link p c) cs)
    (ht : ∀ d ∈ cs, ∃ ctx, p.context d = some ctx ∧ Typed cls ctx) (hl : cs.length ≤ p.nextContext) :
    findContext p ev c vs = .ok (cs.find? (takes p ev)) vs := by
  apply findLoop_eq e _ (Nat.lt_succ_of_le hl)
  intro d hd
  obtain ⟨ctx, hctx, -⟩ := ht d hd
  rw [hctx, Option.isSome_some]

/-- The contexts behind `c`, up to the one that does not pass the event on. -/
theorem passOn_eq {ds : List Nat} {z : Nat} (e : Ended (ev.link p) back q (ev.link p c) (ds ++ [z]))
    (ht : ∀ d ∈ ds ++ [z], ∃ ctx, p.context d = some ctx ∧ Typed cls ctx) (hz : takes p ev z ∧ endsAt p ev z)
    (hds : ∀ d ∈ ds, endsAt p ev d = false) (hl : (ds ++ [z]).length ≤ p.nextContext) (hf : ds.length < fuel) :
    passOn p ev (invoke cls p b ev fuel) c vs = .ok () (vs ++ trace p b ev (ds ++ [z])) := by
  induction ds generalizing c q fuel vs with
  | nil =>
    obtain ⟨fuel, rfl⟩ : ∃ n, fuel = n + 1 := ⟨fuel - 1, by simp at hf; omega⟩
    rw [passOn, Method.bind_apply, findContext_eq e ht hl, List.nil_append, List.find?_cons_of_pos hz.1]
    apply invoke_eq hz.1 (e.1 ▸ e) ht (Nat.zero_le _)
    intro vs
    simp [hz.2, trace]
  | cons d ds ih =>
    have ht' : ∀ d ∈ ds ++ [z], ∃ ctx, p.context d = some ctx ∧ Typed cls ctx := fun d' hd =>
      ht d' (List.mem_cons_of_mem _ hd)
    have hds' : ∀ d ∈ ds, endsAt p ev d = false := fun d' hd => hds d' (List.mem_cons_of_mem _ hd)
    have hl' : (ds ++ [z]).length ≤ p.nextContext := (Nat.le_succ _).trans hl
    obtain ⟨fuel, rfl⟩ : ∃ n, fuel = n + 1 := ⟨fuel - 1, by simp at hf; omega⟩
    rw [List.length_cons] at hf
    rw [passOn, Method.bind_apply, findContext_eq e ht hl, List.cons_append]
    obtain ⟨-, hb, h3⟩ : _ ∧ _ ∧ Ended (ev.link p) back (some d) (ev.link p d) (ds ++ [z]) := e
    by_cases hk : takes p ev d
    · rw [List.find?_cons_of_pos hk]
      apply invoke_eq hk ⟨rfl, hb, h3⟩ ht hl'
      intro vs
      rw [hds d (by simp), if_neg Bool.false_ne_true]
      exact ih h3 ht' hds' hl' (by omega)
    · -- from `d` on, the same is found
      have hd : passOn p ev (invoke cls p b ev (fuel + 1)) d vs = _ := ih h3 ht' hds' hl' (by omega)
      rw [passOn, Method.bind_apply, findContext_eq h3 ht' hl'] at hd
      rw [List.find?_cons_of_neg hk, hd, trace, if_neg hk]

/-! ## Pipelines -/

/-- The contexts `l` have handlers of the application. -/
def Populated (cls : Classes) (l : List ChannelHandlerContext) : Prop :=
  ∀ ctx ∈ l, Typed cls ctx ∧ ∀ h, ctx.handler = some h → ∃ id, h = .user id

/-- A call does not add the handler of a head or a tail. -/
def Call.OfUser (c : Call) : Prop := ∀ name h, c = .addLast name (some h) → ∃ id, h = .user id

theorem populated_of_files {id : Nat} {calls : List Call} {l : List ChannelHandlerContext}
    (hr : Run (Files cls id) [] calls l) (hu : ∀ c ∈ calls, c.OfUser) : Populated cls l := by
  have added : ∀ {l : List ChannelHandlerContext} {name given : String} {handler : Option ChannelHandler},
      (Call.addLast given handler).OfUser → Populated cls l → Populated cls (l ++ [.new cls name handler]) := by
    intro l name given handler hu hl ctx hctx
    rcases List.mem_append.mp hctx with h | h
    · exact hl ctx h
    · obtain rfl := List.mem_singleton.mp h
      refine ⟨typed_new name handler, fun h hh => hu given h ?_⟩
      rw [← hh]
      rfl
  refine Run.inv_mem (P := Populated cls) (fun _ h => absurd h List.not_mem_nil) hr fun l c l' hc hl hf => ?_
  have hu := hu c hc
  cases hf with
  | added | unnamed => exact added hu hl
  | duplicate | get | contextNamed | contextOf => exact hl
  | removeNamed | removeHandler => exact fun ctx h => hl ctx (List.mem_of_mem_eraseP h)

section

variable {xs : List Nat} {l : List ChannelHandlerContext} (C : Chained cls p xs l) (P : Populated cls l)

include C P

theorem Chained.typed : ∀ c ∈ head_ :: (xs ++ [tail_]), ∃ ctx, p.context c = some ctx ∧ Typed cls ctx := by
  intro c hc
  rcases List.mem_cons.mp hc with rfl | hc
  · exact ⟨_, C.head, typed_headContext p.id⟩
  · rcases List.mem_append.mp hc with hc | hc
    · obtain ⟨ctx, hctx⟩ := Option.isSome_iff_exists.mp (C.isSome (c := c) (by simp [hc]))
      exact ⟨ctx, hctx, (P ctx (C.context_mem hc hctx)).1⟩
    · rw [List.mem_singleton.mp hc]
      exact ⟨_, C.tail, typed_tailContext p.id⟩

theorem Chained.endsAt_eq (ev : HandlerEvent ε κ) : ∀ c ∈ xs, endsAt p ev c = false := by
  intro c hc
  obtain ⟨ctx, hctx⟩ := Option.isSome_iff_exists.mp (C.isSome (c := c) (by simp [hc]))
  rw [endsAt, hctx, Option.bind_some]
  cases hh : ctx.handler with
  | none => rfl
  | some h =>
    obtain ⟨id, rfl⟩ := (P ctx (C.context_mem hc hctx)).2 h hh
    rfl

theorem Chained.invoke_head (hi : ev.isInbound) :
    invoke cls p b ev (p.nextContext + 1) head_ vs = .ok () (vs ++ trace p b ev (head_ :: (xs ++ [tail_]))) := by
  have hlink : ev.link p = p.next := if_pos hi
  have hl : (xs ++ [tail_]).length ≤ p.nextContext := by
    have := C.length_le
    simp [C.length_eq]
    omega
  have e : Ended (ev.link p) p.prev none (some head_) (head_ :: (xs ++ [tail_])) := by
    rw [hlink]
    exact C.links
  have hhead : endsAt p ev head_ = false := by simp [endsAt, C.head, headContext, HandlerEvent.ends, hi]
  have htail : takes p ev tail_ ∧ endsAt p ev tail_ := by
    simp [takes, endsAt, C.tail, tailContext, HandlerEvent.flag, HandlerEvent.ends, hi]
  apply invoke_eq _ e (C.typed P) hl
  · intro vs
    rw [hhead, if_neg Bool.false_ne_true]
    apply passOn_eq e.2.2 (fun d hd => C.typed P d (List.mem_cons_of_mem _ hd)) htail (C.endsAt_eq P ev) hl
    simp at hl
    omega
  · simp [takes, C.head, HandlerEvent.flag, hi, headContext]

/-- An event that is fired at the head. -/
theorem Chained.fire_inbound (hi : ev.isInbound) :
    fire cls p b ev vs =
      if ev.returns then .ok () (vs ++ trace p b ev (head_ :: (xs ++ [tail_]))) else .ub := by
  rw [fire, if_pos hi, Method.bind_apply, C.invoke_head P hi, Outcome.bind_ok, Method.ite_apply]
  rfl

/-- A `write` or `close` that starts at the tail. -/
theorem Chained.fire_outbound (ho : ev.isInbound = false) :
    fire cls p b ev vs = .ok () (vs ++ trace p b ev (xs.reverse ++ [head_])) := by
  have hlink : ev.link p = p.prev := if_neg (by simp [ho])
  have hl : (xs.reverse ++ [head_]).length ≤ p.nextContext := by
    have := C.length_le
    simp [C.length_eq]
    omega
  have hrev : (head_ :: (xs ++ [tail_])).reverse = tail_ :: (xs.reverse ++ [head_]) := by simp
  have e := C.links.reverse
  rw [hrev, ← hlink] at e
  have hhead : takes p ev head_ ∧ endsAt p ev head_ := by
    simp [takes, endsAt, C.head, headContext, HandlerEvent.flag, HandlerEvent.ends, ho]
  rw [fire, if_neg (by simp [ho])]
  apply passOn_eq e.2.2 _ hhead (fun d hd => C.endsAt_eq P ev d (List.mem_reverse.mp hd)) hl
  · simp at hl ⊢
    omega
  · intro d hd
    apply C.typed P
    rw [← List.mem_reverse, hrev]
    exact List.mem_cons_of_mem _ hd

end

/-! ## What is due -/

/-- The contexts that an exception is due to: from the first on, as long as they forward it. -/
def offered (passes : Nat → Bool) : List Nat → List Nat
  | [] => []
  | c :: cs => c :: if passes c then offered passes cs else []

theorem takes_inbound (hi : ev.isInbound) : takes p ev = inboundAt p := by
  funext c
  rw [takes, inboundAt, show ev.flag = (·.inbound_) from funext fun ctx => if_pos hi]

theorem takes_outbound (ho : ev.isInbound = false) : takes p ev = outboundAt p := by
  funext c
  rw [takes, outboundAt, show ev.flag = (·.outbound_) from funext fun ctx => if_neg (by simp [ho])]

/-- Where no handler throws, all that take the event are visited. -/
theorem trace_append (hn : ∀ c ∈ cs, takes p ev c → thrownAt p b ev c = none) (ds : List Nat) :
    trace p b ev (cs ++ ds) = (cs.filter (takes p ev)).map (.called ev) ++ trace p b ev ds := by
  induction cs with
  | nil => rfl
  | cons c cs ih =>
    have ih := ih fun d hd => hn d (List.mem_cons_of_mem _ hd)
    rw [List.cons_append, trace]
    by_cases hk : takes p ev c
    · simp [hk, hn c (by simp) hk, ih]
    · simp [hk, ih]

theorem trace_eq (hn : ∀ c ∈ cs, takes p ev c → thrownAt p b ev c = none) :
    trace p b ev cs = (cs.filter (takes p ev)).map (.called ev) := by
  have h := trace_append hn []
  simpa [trace] using h

/-- An exception comes to all that it is due to, if and only if they are inbound. -/
theorem exceptionTrace_iff (what : String) (cs : List Nat) :
    (exceptionTrace p b what cs : List (Visit ε κ)) = (offered (passesAt p b) cs).map (.exceptionCaught what) ↔
      ∀ c ∈ offered (passesAt p b) cs, inboundAt p c := by
  induction cs with
  | nil => simp [exceptionTrace, offered]
  | cons c cs ih =>
    rw [exceptionTrace, offered]
    by_cases hi : inboundAt p c
    · by_cases hp : passesAt p b c
      · simp [hi, hp, ih]
      · simp [hi, hp]
    · simp [hi]

theorem thrownAt_of_throws {event : ε} (hb : ∀ id, b.throws id event = none) (c : Nat) :
    thrownAt p b (.channelRead event : HandlerEvent ε κ) c = none := by
  rw [thrownAt, Option.bind_eq_none_iff]
  intro h _
  cases h with
  | user id => exact hb id
  | headContext | tailContext => rfl

theorem thrownAt_of_not_read (hr : ev.isRead = false) (c : Nat) : thrownAt p b ev c = none := by
  rw [thrownAt, Option.bind_eq_none_iff]
  intro h _
  by_contra hc
  obtain ⟨what, hw⟩ := Option.ne_none_iff_exists'.mp hc
  rw [isRead_of_thrown hw] at hr
  cases hr

/-- What is fired on a pipeline, with the contexts `xs` between its head and its tail: an event that no handler throws
at, or one that the handler of the context `c` is the first to throw at. -/
inductive Firing (ε κ : Type) (p : DefaultChannelPipeline) (xs : List Nat)
  | event (ev : HandlerEvent ε κ) (b : HandlerCallbacks ε) (calm : ∀ id event, b.throws id event = none)
  | failure (b : HandlerCallbacks ε) (event : ε) (what : String) (before : List Nat) (c : Nat) (behind : List Nat)
      (split : xs = before ++ c :: behind) (inbound : inboundAt p c)
      (throws : thrownAt p b (.channelRead event : HandlerEvent ε κ) c = some what)
      (first : ∀ d ∈ before, inboundAt p d → thrownAt p b (.channelRead event : HandlerEvent ε κ) d = none)

namespace Firing

variable {xs : List Nat}

/-- What the pipeline does then. -/
def run (cls : Classes) : Firing ε κ p xs → Method (List (Visit ε κ)) Unit
  | event ev b _ => fire cls p b ev
  | failure b e .. => fire cls p b (.channelRead e)

/-- The callbacks that are due: of the handlers that take the event, and of those behind the one that throws. -/
def due : Firing ε κ p xs → List (Visit ε κ)
  | event ev _ _ =>
    if ev.isInbound then (head_ :: (xs.filter (inboundAt p) ++ [tail_])).map (.called ev)
    else ((xs.filter (outboundAt p)).reverse ++ [head_]).map (.called ev)
  | failure b e what before c behind _ _ _ _ =>
    (head_ :: (before.filter (inboundAt p) ++ [c])).map (.called (.channelRead e)) ++
      (offered (passesAt p b) (c :: (behind ++ [tail_]))).map (.exceptionCaught what)

/-- The function that fires it returns a value, and each handler that the exception is due to is inbound. -/
def Clear : Firing ε κ p xs → Prop
  | event ev _ _ => ev ≠ .channelUnregistered
  | failure b _ _ _ c behind _ _ _ _ => ∀ d ∈ offered (passesAt p b) (c :: (behind ++ [tail_])), inboundAt p d

end Firing

theorem returns_iff : ev.returns ↔ ev ≠ .channelUnregistered := by
  cases ev <;> simp [HandlerEvent.returns]

section

variable {xs : List Nat} {l : List ChannelHandlerContext} (C : Chained cls p xs l) (P : Populated cls l)

include C

theorem Chained.inboundAt_head : inboundAt p head_ := by simp [inboundAt, C.head, headContext]

theorem Chained.inboundAt_tail : inboundAt p tail_ := by simp [inboundAt, C.tail, tailContext]

theorem Chained.outboundAt_head : outboundAt p head_ := by simp [outboundAt, C.head, headContext]

theorem Chained.thrownAt_head : thrownAt p b ev head_ = none := by
  simp [thrownAt, C.head, headContext, HandlerCallbacks.thrown]

include P

theorem Chained.event_iff (calm : ∀ id event, b.throws id event = none) :
    (Firing.event ev b calm : Firing ε κ p xs).run cls [] = .ok () (Firing.event ev b calm : Firing ε κ p xs).due ↔
      ev ≠ .channelUnregistered := by
  have hn : ∀ c, thrownAt p b ev c = none := by
    intro c
    by_cases hr : ev.isRead
    · cases ev with
      | channelRead event => exact thrownAt_of_throws (calm · event) c
      | channelRegistered | channelUnregistered | channelActive | channelInactive | write | close => cases hr
    · exact thrownAt_of_not_read (by simpa using hr) c
  rw [Firing.run, Firing.due]
  cases hi : ev.isInbound with
  | true =>
    rw [C.fire_inbound P hi, List.nil_append, trace_eq fun c _ _ => hn c, takes_inbound hi, if_pos rfl, ← returns_iff]
    cases ev.returns with
    | true => simp [C.inboundAt_head, C.inboundAt_tail]
    | false => simp
  | false =>
    have hne : ev ≠ .channelUnregistered := by
      rintro rfl
      cases hi
    rw [C.fire_outbound P hi, List.nil_append, trace_eq fun c _ _ => hn c, takes_outbound hi]
    simp [C.outboundAt_head, hne]

theorem Chained.failure_iff {event : ε} {before behind : List Nat} (hx : xs = before ++ c :: behind)
    (hi : inboundAt p c) (ht : thrownAt p b (.channelRead event : HandlerEvent ε κ) c = some what)
    (hf : ∀ d ∈ before, inboundAt p d → thrownAt p b (.channelRead event : HandlerEvent ε κ) d = none) :
    fire cls p b (.channelRead event : HandlerEvent ε κ) [] =
        .ok () ((head_ :: (before.filter (inboundAt p) ++ [c])).map (.called (.channelRead event)) ++
          (offered (passesAt p b) (c :: (behind ++ [tail_]))).map (.exceptionCaught what)) ↔
      ∀ d ∈ offered (passesAt p b) (c :: (behind ++ [tail_])), inboundAt p d := by
  have hsplit : head_ :: (xs ++ [tail_]) = (head_ :: before) ++ c :: (behind ++ [tail_]) := by simp [hx]
  have htakes : takes p (.channelRead event : HandlerEvent ε κ) = inboundAt p := takes_inbound rfl
  have hnone : ∀ d ∈ head_ :: before, takes p (.channelRead event : HandlerEvent ε κ) d →
      thrownAt p b (.channelRead event : HandlerEvent ε κ) d = none := by
    intro d hd hk
    rcases List.mem_cons.mp hd with rfl | hd
    · exact C.thrownAt_head
    · exact hf d hd (htakes ▸ hk)
  have hdue : (_ : List (Visit ε κ)) = _ ↔ _ := exceptionTrace_iff (p := p) (b := b) what (c :: (behind ++ [tail_]))
  rw [C.fire_inbound P rfl, hsplit, trace_append hnone, trace, htakes, if_pos hi, ht, ← hdue]
  simp [HandlerEvent.returns, C.inboundAt_head]

end

/-- What is fired on a pipeline that calls have filled is due where it comes to, if and only if it is not
`fireChannelUnregistered`, and no handler that is not inbound stands between the one that throws and the first
behind it that does not forward. -/
theorem propagation_iff {id : Nat} {es : List CallOn} (hr : Run (Step cls) (new cls id) es p)
    (hu : ∀ e ∈ es, e.2.OfUser) (ε κ : Type) :
    ∃ xs l, Run (Files cls id) [] (es.map Prod.snd) l ∧
      Ended p.next p.prev none (some head_) (head_ :: (xs ++ [tail_])) ∧ xs.map p.context = l.map some ∧
      ∀ f : Firing ε κ p xs, f.run cls [] = .ok () f.due ↔ f.Clear := by
  obtain ⟨-, l, hl, xs, C⟩ := files_of_run hr
  have P : Populated cls l := by
    apply populated_of_files hl
    intro c hc
    obtain ⟨e, he, rfl⟩ := List.mem_map.mp hc
    exact hu e he
  refine ⟨xs, l, hl, C.links, C.contexts, fun f => ?_⟩
  cases f with
  | event ev b calm => exact C.event_iff P calm
  | failure b event what before c behind hx hi ht hf => exact C.failure_iff P hx hi ht hf

/-- A handler that reads, before one that writes. -/
def readerWriter : List CallOn :=
  [(none, .addLast "reader" (some (.user 0))), (none, .addLast "writer" (some (.user 1)))]

/-- A class that reads and one that writes. -/
def readerWriterClasses : Classes where
  user id := if id = 0 then ⟨"Reader", true, false⟩ else ⟨"Writer", false, true⟩
  headContext := mangled.headContext
  tailContext := mangled.tailContext

theorem propagation_iff_readerWriter :
    ∃ p, Run (Step readerWriterClasses) (new readerWriterClasses 0) readerWriter p ∧ ∃ xs l, Run (Files readerWriterClasses 0) [] (readerWriter.map Prod.snd) l ∧
      Ended p.next p.prev none (some head_) (head_ :: (xs ++ [tail_])) ∧ xs.map p.context = l.map some ∧
      ∀ f : Firing Unit Unit p xs, f.run readerWriterClasses [] = .ok () f.due ↔ f.Clear := by
  have hr : ∃ p, Run (Step readerWriterClasses) (new readerWriterClasses 0) readerWriter p :=
    ⟨_, .cons rfl (.cons rfl .nil)⟩
  obtain ⟨p, hr⟩ := hr
  refine ⟨p, hr, propagation_iff hr ?_ Unit Unit⟩
  rintro e he name h hc
  rcases List.mem_pair.mp he with rfl | rfl
  · exact ⟨0, by cases hc; rfl⟩
  · exact ⟨1, by cases hc; rfl⟩

/-- The reader throws, and the exception does not come to the tail. -/
theorem propagation_not_past_writer :
    ∃ p, Run (Step readerWriterClasses) (new readerWriterClasses 0) readerWriter p ∧
      Ended p.next p.prev none (some head_) (head_ :: ([2, 3] ++ [tail_])) ∧
      ∃ f : Firing Unit Unit p [2, 3], f.run readerWriterClasses [] ≠ .ok () f.due := by
  refine ⟨_, .cons rfl (.cons rfl .nil), ⟨rfl, rfl, rfl, rfl, rfl, rfl, rfl, rfl, rfl⟩, ?_⟩
  refine ⟨.failure ⟨fun _ _ => some "broken", fun _ => true⟩ () "broken" [] 2 [3] rfl rfl rfl nofun, fun h => ?_⟩
  have hlength := congrArg (·.ok?.map List.length) h
  exact absurd hlength (by decide +kernel)

end DefaultChannelPipeline

end Nio.Net
