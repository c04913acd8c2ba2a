import Mathlib.Data.List.DropRight
import NioSocket.Net.Propagation

/-!
# Setting up a connection

A `ChannelInitializer` fills the pipeline of a connection: when the registration of the channel comes to it, its
`initChannel` adds handlers, it takes itself out of the pipeline, and the registration starts again at the head. The
contexts of the pipeline change while the event passes over them, and the handlers that are added may be
initializers themselves.
-/

namespace Nio.Net

open DefaultChannelPipeline

/-- An addition that `initChannel` makes: a name, and an object of the application or a null pointer. -/
abbrev Addition := String × Option Nat

/-- The handler that is added. -/
def Addition.handler (a : Addition) : Option ChannelHandler := a.2.map .user

/-- What `initChannel(connection)` of an initializer does to the pipeline: it adds handlers, and may throw then. -/
structure Initialization where
  additions : List Addition
  throws : Option String

/-- The objects of the application that are a `ChannelInitializer`, which is an inbound handler. -/
structure Initializers (cls : Classes) where
  user : Nat → Option Initialization
  inbound : ∀ object, (user object).isSome → (cls.user object).inbound

/-- What `initChannel` of a handler does, if it is an initializer. -/
def Initializers.of {cls : Classes} (inits : Initializers cls) : ChannelHandler → Option Initialization
  | .user object => inits.user object
  | .headContext _ | .tailContext _ => none

/-- A pipeline, and the callbacks that were called while an event passed over it. -/
structure Passing (ε κ : Type) where
  called : Called
  visits : List (Visit ε κ)

namespace Passing

variable {ε κ α : Type}

/-- A call on the pipeline. -/
def onCalled (m : Method Called α) : Method (Passing ε κ) α := fun s =>
  match m s.called with
  | .ok a c => .ok a { s with called := c }
  | .throw e c => .throw e { s with called := c }
  | .ub => .ub
  | .hang => .hang

/-- What does not change the pipeline. -/
def onVisits (m : DefaultChannelPipeline → Method (List (Visit ε κ)) α) : Method (Passing ε κ) α := fun s =>
  match m s.called.pipeline s.visits with
  | .ok a vs => .ok a { s with visits := vs }
  | .throw e vs => .throw e { s with visits := vs }
  | .ub => .ub
  | .hang => .hang

end Passing

open Passing (onCalled onVisits)

/-- Callbacks that pass on all they get. -/
def HandlerCallbacks.calm (ε : Type) : HandlerCallbacks ε := ⟨fun _ _ => none, fun _ => true⟩

section

variable (cls : Classes)

/-- Additions, one after another. -/
def addAll : List Addition → Method Called Unit
  | [] => pure ()
  | a :: as => do
    Called.addLast cls a.1 a.handler
    addAll as

/-- `initChannel(connection)`. -/
def Initialization.run (I : Initialization) : Method Called Unit := do
  addAll cls I.additions
  match I.throws with
  | some what => .throw what
  | none => pure ()

end

namespace ChannelInitializer

section

variable {cls : Classes} {ε κ : Type} (inits : Initializers cls) (closeCallback : κ)

/-- `exceptionCaught(ctx, ex)`. -/
def exceptionCaught (cls : Classes) (ctx : Nat) : Method (Passing ε κ) Unit := do
  let ctx ← onCalled (Called.onPipeline (deref (some ctx)))
  onVisits fun p => passOn p (.close closeCallback)
    (invoke cls p (.calm ε) (.close closeCallback) (p.nextContext + 1)) ctx

/-- `remove(ctx)`, of the handler of the context. -/
def remove (handler : ChannelHandler) (ctx : Nat) : Method (Passing ε κ) Unit := onCalled <| Called.onPipeline do
  let _ ← deref (some ctx)
  if (← context0 (handledBy (some handler))).isSome then DefaultChannelPipeline.remove (handledBy (some handler))

/-- `initChannel(ctx)`, of an initializer that is the handler of the context. -/
def initChannel (cls : Classes) (I : Initialization) (handler : ChannelHandler) (ctx : Nat) :
    Method (Passing ε κ) Bool := fun s =>
  match onCalled (I.run cls) s with
  | .throw _ s' => (do exceptionCaught closeCallback cls ctx; pure false) s'
  | .ok _ s' => (do remove handler ctx; pure true) s'
  | .ub => .ub
  | .hang => .hang

/-- `fireChannelRegistered()` of a context. -/
def fireChannelRegistered (invoked : Nat → Method (Passing ε κ) Unit) (c : Nat) : Method (Passing ε κ) Unit := do
  match ← onVisits fun p => findContext p .channelRegistered c with
  | some d => invoked d
  | none => pure ()

/-- `invokeChannelRegistered()`, with the callbacks that pass the event on or start it again, in `fuel` calls. -/
def invokeChannelRegistered : Nat → Nat → Method (Passing ε κ) Unit
  | 0, _ => fun _ => .hang
  | fuel + 1, c => do
    match ← onVisits fun p => castHandler cls p (·.inbound) c with
    | none => pure ()
    | some h =>
      onVisits fun _ => visit (.called .channelRegistered c)
      match inits.of h with
      | none =>
        if (HandlerEvent.channelRegistered : HandlerEvent ε κ).ends h then pure ()
        else fireChannelRegistered (invokeChannelRegistered fuel) c
      | some I =>
        if ← initChannel closeCallback cls I h c then invokeChannelRegistered fuel head_
        else fireChannelRegistered (invokeChannelRegistered fuel) c

/-- What `initAndRegister()` of a factory does with the pipeline of the connection that it makes, and the acceptor of
a server with one that it accepts. -/
def initAndRegister (fuel : Nat) (handler : Nat) : Method (Passing ε κ) Unit := do
  onCalled (Called.addLast cls "" (some (.user handler)))
  invokeChannelRegistered inits closeCallback fuel head_

/-- `channelRead` of a `ServerBootstrapAcceptor` with a connection, up to its first read. -/
def channelRead (fuel : Nat) (handler : Nat) : Method (Passing ε κ) Unit := do
  initAndRegister inits closeCallback fuel handler
  onVisits fun p => fire cls p (.calm ε) .channelActive

end

end ChannelInitializer

/-! ## Names -/

/-- A name that `generateName` makes: an empty one, a number alone, or one behind a type. -/
def Generated (name : String) : Prop :=
  name = "" ∨ ∃ n : Nat, name = toString n ∨ ∃ handlerType, name = Called.numbered handlerType ++ toString n

/-- The digits that a name ends with. -/
def lastDigits (name : String) : List Char := name.toList.rtakeWhile Char.isDigit

/-- What stands before them. -/
def beforeDigits (name : String) : List Char := name.toList.rdropWhile Char.isDigit

theorem lastDigits_of {name : String} {l : List Char} {n : Nat} (h : name.toList = l ++ Nat.toDigits 10 n)
    (hl : ∀ hne : l ≠ [], ¬(l.getLast hne).isDigit) :
    lastDigits name = Nat.toDigits 10 n ∧ beforeDigits name = l := by
  have hd : ∀ c ∈ (Nat.toDigits 10 n).reverse, c.isDigit := fun c hc =>
    Nat.isDigit_of_mem_toDigits (by decide) (by decide) (List.mem_reverse.mp hc)
  have ht : l.rtakeWhile Char.isDigit = [] := List.rtakeWhile_eq_nil_iff.mpr hl
  have hr : l.rdropWhile Char.isDigit = l := List.rdropWhile_eq_self_iff.mpr hl
  rw [List.rtakeWhile] at ht
  rw [List.rdropWhile] at hr
  rw [lastDigits, beforeDigits, h, List.rtakeWhile, List.rdropWhile, List.reverse_append,
    List.takeWhile_append_of_pos hd, List.dropWhile_append_of_pos hd, List.reverse_append, List.reverse_reverse, ht, hr]
  exact ⟨rfl, rfl⟩

theorem toList_toString (n : Nat) : (toString n).toList = Nat.toDigits 10 n := by
  rw [Nat.toString_eq_repr, Nat.toList_repr]

theorem toList_numbered (handlerType : String) :
    (Called.numbered handlerType).toList = handlerType.toList ++ ['#'] := by
  rw [Called.numbered, String.toList_append]
  rfl

theorem generated_iff {name : String} : Generated name ↔ name = "" ∨
    lastDigits name = Nat.toDigits 10 (Nat.ofDigitChars 10 (lastDigits name) 0) ∧
      (beforeDigits name = [] ∨ (beforeDigits name).getLast? = some '#') := by
  refine or_congr_right ⟨?_, ?_⟩
  · rintro ⟨n, rfl | ⟨handlerType, rfl⟩⟩
    · obtain ⟨hd, hb⟩ := lastDigits_of (l := []) (toList_toString n) fun hne => absurd rfl hne
      rw [hd, hb, Nat.ofDigitChars_ten_toDigits]
      exact ⟨rfl, .inl rfl⟩
    · have e : (Called.numbered handlerType ++ toString n).toList =
          handlerType.toList ++ ['#'] ++ Nat.toDigits 10 n := by
        rw [String.toList_append, toList_numbered, toList_toString]
      obtain ⟨hd, hb⟩ := lastDigits_of e fun _ => by simp
      rw [hd, hb, Nat.ofDigitChars_ten_toDigits]
      exact ⟨rfl, .inr (by simp)⟩
  · rintro ⟨hd, hb⟩
    have e : beforeDigits name ++ lastDigits name = name.toList := List.rdropWhile_append_rtakeWhile ..
    refine ⟨Nat.ofDigitChars 10 (lastDigits name) 0, ?_⟩
    rcases hb with hb | hb
    · left
      rw [← String.toList_inj, toList_toString, ← hd, ← e, hb, List.nil_append]
    · obtain ⟨l, hl⟩ := List.getLast?_eq_some_iff.mp hb
      right
      refine ⟨String.ofList l, ?_⟩
      rw [← String.toList_inj, String.toList_append, toList_numbered, toList_toString, String.toList_ofList, ← hd, ← e, hl]

instance : DecidablePred Generated := fun _ => decidable_of_iff' _ generated_iff

/-- The name is none that `generateName` makes. -/
def Plain (name : String) : Bool := ¬Generated name

theorem not_plain {name : String} : Plain name = false ↔ Generated name := by simp [Plain]

theorem Called.generated_generateName {cls : Classes} {s s' : Called} {xs : List Nat} {l : List ChannelHandlerContext}
    {h : ChannelHandler} {name : String} (C : Chained cls s.pipeline xs l)
    (hg : Called.generateName cls (some h) s = .ok name s') : Generated name := by
  by_cases hc : s.Cached (cls.of h).name
  · obtain ⟨n, -, F⟩ := exists_leastFree (takenNames cls s.pipeline.id l) ""
    rw [Called.generateName_hit C hc F] at hg
    obtain ⟨rfl, -⟩ := Outcome.ok.inj hg
    rw [Called.unnumbered]
    split
    · exact .inr ⟨n, .inl rfl⟩
    · exact .inl rfl
  · obtain ⟨n, -, F⟩ := exists_leastFree (takenNames cls s.pipeline.id l) (Called.numbered (cls.of h).name)
    rw [Called.generateName_miss C hc F] at hg
    obtain ⟨rfl, -⟩ := Outcome.ok.inj hg
    exact .inr ⟨n, .inr ⟨_, rfl⟩⟩

/-! ## Additions -/

/-- The context is the one that the addition makes, under a name that may be generated. -/
structure Filed (cls : Classes) (a : Addition) (ctx : ChannelHandlerContext) : Prop where
  handler : ctx.handler = a.handler
  typed : Typed cls ctx
  name : ctx.name_ = a.1 ∨ Plain a.1 = false ∧ Plain ctx.name_ = false

/-- An addition that gives no name has a handler, and a name that is given is none that `generateName` makes. -/
def Addition.Proper (a : Addition) : Bool := if a.1 = "" then a.2.isSome else Plain a.1

/-- The names that are not generated are all different. -/
def Distinct (names : List String) : Prop := (names.filter Plain).Nodup

instance (names : List String) : Decidable (Distinct names) := inferInstanceAs (Decidable (List.Nodup _))

theorem Filed.filter_plain {cls : Classes} {a : Addition} {ctx : ChannelHandlerContext} (h : Filed cls a ctx) :
    [ctx.name_].filter Plain = [a.1].filter Plain := by
  rcases h.name with hn | ⟨ha, hn⟩
  · rw [hn]
  · simp [ha, hn]

theorem filed_new {cls : Classes} (a : Addition) {name : String}
    (h : name = a.1 ∨ Plain a.1 = false ∧ Plain name = false) : Filed cls a (.new cls name a.handler) :=
  ⟨rfl, typed_new name a.handler, h⟩

theorem not_plain_tail (cls : Classes) (pipeline : Nat) : Plain (tailContext cls pipeline).name_ = false := by
  rw [not_plain, tailContext, Called.generateName0_eq]
  exact .inr ⟨0, .inr ⟨_, rfl⟩⟩

namespace Called

variable {cls : Classes} {s s' : Called} {xs : List Nat} {l : List ChannelHandlerContext}

/-- The new context is the next that is made. -/
theorem addLast_at {given name : String} {handler : Option ChannelHandler}
    (hf : filterName cls given handler s = .ok name s') (C : Chained cls s'.pipeline xs l)
    (hn : name ∉ takenNames cls s'.pipeline.id l) :
    ∃ t, addLast cls given handler s = .ok () t ∧ t.pipeline.id = s'.pipeline.id ∧
      t.pipeline.nextContext = s'.pipeline.nextContext + 1 ∧
      Chained cls t.pipeline (xs ++ [s'.pipeline.nextContext]) (l ++ [.new cls name handler]) := by
  obtain ⟨q, hq, hqt⟩ := C.links.exists_prev_last
  have C' : Chained cls (s'.pipeline.appended (.new cls name handler) q) (xs ++ [s'.pipeline.nextContext])
      (l ++ [.new cls name handler]) := C.appended hq hqt hn
  have ha : (newContext (.new cls name handler) >>= addLast0) s'.pipeline =
      .ok () (s'.pipeline.appended (.new cls name handler) q) := C.append_eq (List.mem_append_left [tail_] hq) hqt
  refine ⟨{ s' with pipeline := s'.pipeline.appended (.new cls name handler) q }, ?_, rfl, rfl, C'⟩
  rw [addLast, Method.bind_apply, hf, Outcome.bind_ok, Method.bind_apply]
  obtain ⟨c, p, hc, hp⟩ := Outcome.bind_eq_ok ha
  rw [onPipeline_ok hc, Outcome.bind_ok, onPipeline_ok hp]

/-- An addition under a name that is free, if one is given. -/
theorem addLast_filed (C : Chained cls s.pipeline xs l) {a : Addition} (ha : a.1 = "" → a.2.isSome)
    (hn : a.1 ≠ "" → a.1 ∉ takenNames cls s.pipeline.id l) :
    ∃ t ctx, addLast cls a.1 a.handler s = .ok () t ∧ t.pipeline.id = s.pipeline.id ∧
      t.pipeline.nextContext = s.pipeline.nextContext + 1 ∧
      Chained cls t.pipeline (xs ++ [s.pipeline.nextContext]) (l ++ [ctx]) ∧ Filed cls a ctx := by
  obtain ⟨name, handler⟩ := a
  by_cases hne : name = ""
  · subst hne
    obtain ⟨n, rfl⟩ := Option.isSome_iff_exists.mp (ha rfl)
    obtain ⟨name, s', hg, hp, hfree, -⟩ := generateName_free C (.user n)
    have hplain : Plain name = false := not_plain.mpr (generated_generateName C hg)
    have hf : filterName cls "" (Addition.handler ("", some n)) s = .ok name s' := hg
    rw [← hp] at C hfree ⊢
    obtain ⟨t, ht, hid, hnext, C'⟩ := addLast_at hf C hfree
    exact ⟨t, _, ht, hid, hnext, C', filed_new ("", some n) (.inr ⟨not_plain.mpr (.inl rfl), hplain⟩)⟩
  · have hf : filterName cls name (Addition.handler (name, handler)) s = .ok name s := by
      have hc := checkDuplicateName_eq C name
      rw [if_neg (hn hne)] at hc
      rw [filterName, if_neg hne, Method.bind_apply, onPipeline_ok hc]
      rfl
    obtain ⟨t, ht, hid, hnext, C'⟩ := addLast_at hf C (hn hne)
    exact ⟨t, _, ht, hid, hnext, C', filed_new (name, handler) (.inl rfl)⟩

/-- A proper addition, under a name that no context between the head and the tail has. -/
theorem addLast_proper (C : Chained cls s.pipeline xs l) {a : Addition} (ha : a.Proper)
    (hn : Plain a.1 → a.1 ∉ l.map (·.name_)) :
    ∃ t ctx, addLast cls a.1 a.handler s = .ok () t ∧ t.pipeline.id = s.pipeline.id ∧
      t.pipeline.nextContext = s.pipeline.nextContext + 1 ∧
      Chained cls t.pipeline (xs ++ [s.pipeline.nextContext]) (l ++ [ctx]) ∧ Filed cls a ctx := by
  apply addLast_filed C
  · intro he
    simpa [Addition.Proper, he] using ha
  · intro hne
    have hplain : Plain a.1 := by simpa [Addition.Proper, hne] using ha
    rw [takenNames, List.map_append, List.mem_append, not_or]
    refine ⟨hn hplain, fun ht => ?_⟩
    rw [List.map_singleton, List.mem_singleton] at ht
    rw [ht, not_plain_tail] at hplain
    cases hplain

end Called

/-- Additions whose names are different make the next contexts, in order. -/
theorem addAll_eq {cls : Classes} {as : List Addition} {s : Called} {xs : List Nat} {l : List ChannelHandlerContext}
    (C : Chained cls s.pipeline xs l) (ha : ∀ a ∈ as, a.Proper)
    (hn : Distinct (l.map (·.name_) ++ as.map Prod.fst)) :
    ∃ t new, addAll cls as s = .ok () t ∧ t.pipeline.id = s.pipeline.id ∧
      t.pipeline.nextContext = s.pipeline.nextContext + as.length ∧
      Chained cls t.pipeline (xs ++ List.range' s.pipeline.nextContext as.length) (l ++ new) ∧
      List.Forall₂ (Filed cls) as new := by
  induction as generalizing s xs l with
  | nil => exact ⟨s, [], rfl, rfl, rfl, by simpa using C, .nil⟩
  | cons a as ih =>
    have hfree : Plain a.1 → a.1 ∉ l.map (·.name_) := by
      intro hp hm
      rw [Distinct, List.map_cons, List.filter_append, List.filter_cons_of_pos hp, List.nodup_append] at hn
      exact hn.2.2 a.1 (List.mem_filter.mpr ⟨hm, hp⟩) a.1 List.mem_cons_self rfl
    obtain ⟨t, ctx, ht, hid, hnext, C', F⟩ := Called.addLast_proper C (ha a List.mem_cons_self) hfree
    have hn' : Distinct ((l ++ [ctx]).map (·.name_) ++ as.map Prod.fst) := by
      rw [Distinct, List.map_append, List.append_assoc, List.filter_append, List.filter_append, List.map_singleton,
        F.filter_plain, ← List.filter_append, ← List.filter_append]
      exact hn
    obtain ⟨t', new, ht', hid', hnext', C'', F'⟩ := ih C' (fun b hb => ha b (List.mem_cons_of_mem a hb)) hn'
    refine ⟨t', ctx :: new, ?_, hid'.trans hid, ?_, ?_, .cons F F'⟩
    · rw [addAll, Method.bind_apply, ht]
      exact ht'
    · rw [hnext', hnext, List.length_cons, Nat.add_assoc, Nat.add_comm 1]
    · rw [hnext] at C''
      simpa [List.range'_succ] using C''

/-! ## Callbacks -/

namespace Passing

variable {ε κ α : Type} {s : Passing ε κ}

/-- More callbacks were called. -/
def visited (s : Passing ε κ) (vs : List (Visit ε κ)) : Passing ε κ := { s with visits := s.visits ++ vs }

@[simp] theorem visited_called (vs : List (Visit ε κ)) : (s.visited vs).called = s.called := rfl

@[simp] theorem visited_visits (vs : List (Visit ε κ)) : (s.visited vs).visits = s.visits ++ vs := rfl

@[simp] theorem visited_visited (vs ws : List (Visit ε κ)) : (s.visited vs).visited ws = s.visited (vs ++ ws) := by
  simp [visited]

theorem visited_nil : s.visited [] = s := by simp [visited]

theorem onVisits_ok {m : DefaultChannelPipeline → Method (List (Visit ε κ)) α} {a : α} {vs : List (Visit ε κ)}
    (h : m s.called.pipeline s.visits = .ok a vs) : onVisits m s = .ok a { s with visits := vs } := by
  simp [onVisits, h]

theorem onCalled_ok {m : Method Called α} {a : α} {t : Called} (h : m s.called = .ok a t) :
    onCalled m s = .ok a { s with called := t } := by
  simp [onCalled, h]

end Passing

namespace ChannelInitializer

variable {cls : Classes} {ε κ : Type} {inits : Initializers cls} {closeCallback : κ} {fuel c : Nat}
  {s : Passing ε κ} {ctx : ChannelHandlerContext} {h : ChannelHandler} {back : Nat → Option Nat} {q : Option Nat}

/-- The registration comes to these contexts. -/
def registered (cs : List Nat) : List (Visit ε κ) := cs.map (.called .channelRegistered)

theorem invoke_cast (hc : s.called.pipeline.context c = some ctx) (hty : Typed cls ctx) (hi : ctx.inbound_ = true)
    (hh : ctx.handler = some h) :
    onVisits (fun p => castHandler cls p (·.inbound) c) s = .ok (some h) s := by
  obtain ⟨h', hh', hcast⟩ := castHandler_some (·.inbound) s.visits hc (hty.1.symm.trans hi)
  obtain rfl := Option.some_inj.mp (hh.symm.trans hh')
  exact Passing.onVisits_ok hcast

theorem onVisits_visit (v : Visit ε κ) : onVisits (fun _ => visit v) s = .ok () (s.visited [v]) := rfl

/-- A handler that passes the event on. -/
theorem invoke_leaf (hc : s.called.pipeline.context c = some ctx) (hty : Typed cls ctx) (hi : ctx.inbound_ = true)
    (hh : ctx.handler = some h) (hl : inits.of h = none)
    (he : (HandlerEvent.channelRegistered : HandlerEvent ε κ).ends h = false) :
    invokeChannelRegistered inits closeCallback (fuel + 1) c s =
      fireChannelRegistered (invokeChannelRegistered inits closeCallback fuel) c (s.visited (registered [c])) := by
  simp only [invokeChannelRegistered, Method.bind_apply, invoke_cast hc hty hi hh, onVisits_visit, hl, he,
    Outcome.bind_ok, Bool.false_eq_true, if_false]
  rfl

variable (inits closeCallback fuel) in
/-- The tail. -/
theorem invoke_end (hc : s.called.pipeline.context c = some ctx) (hty : Typed cls ctx) (hi : ctx.inbound_ = true)
    (hh : ctx.handler = some h) (hl : inits.of h = none)
    (he : (HandlerEvent.channelRegistered : HandlerEvent ε κ).ends h = true) :
    invokeChannelRegistered inits closeCallback (fuel + 1) c s = .ok () (s.visited (registered [c])) := by
  simp only [invokeChannelRegistered, Method.bind_apply, invoke_cast hc hty hi hh, onVisits_visit, hl, he,
    Outcome.bind_ok, if_true]
  rfl

theorem invoke_init {I : Initialization} (hc : s.called.pipeline.context c = some ctx) (hty : Typed cls ctx)
    (hi : ctx.inbound_ = true) (hh : ctx.handler = some h) (hl : inits.of h = some I) :
    invokeChannelRegistered inits closeCallback (fuel + 1) c s =
      (initChannel closeCallback cls I h c (s.visited (registered [c]))).bind fun b =>
        if b then invokeChannelRegistered inits closeCallback fuel head_
        else fireChannelRegistered (invokeChannelRegistered inits closeCallback fuel) c := by
  simp only [invokeChannelRegistered, Method.bind_apply, invoke_cast hc hty hi hh, onVisits_visit, hl,
    Outcome.bind_ok]
  rfl

/-- The context has a handler of the application, or none, that is no initializer. -/
structure Leaf (inits : Initializers cls) (ctx : ChannelHandlerContext) : Prop where
  typed : Typed cls ctx
  init : ctx.handler.bind inits.of = none
  user : ∀ h, ctx.handler = some h → ∃ object, h = .user object

theorem findContext_registered {p : DefaultChannelPipeline} {ds : List Nat} (hp : s.called.pipeline = p)
    (e : Ended p.next back q (p.next c) ds) (ht : ∀ d ∈ ds, ∃ ctx, p.context d = some ctx ∧ Typed cls ctx)
    (hl : ds.length ≤ p.nextContext) :
    onVisits (fun p => findContext p .channelRegistered c) s = .ok (ds.find? (inboundAt p)) s := by
  subst hp
  have hk : takes s.called.pipeline (HandlerEvent.channelRegistered : HandlerEvent ε κ) = inboundAt s.called.pipeline :=
    takes_inbound rfl
  apply Passing.onVisits_ok
  rw [← hk]
  exact findContext_eq e ht hl

variable (closeCallback fuel) in
/-- The event is passed on over contexts without initializers to the next that it comes to. -/
theorem fire_leaves {p : DefaultChannelPipeline} {ds rest : List Nat} {z : Nat} (hp : s.called.pipeline = p)
    (e : Ended p.next back q (p.next c) (ds ++ z :: rest))
    (ht : ∀ d ∈ ds ++ z :: rest, ∃ ctx, p.context d = some ctx ∧ Typed cls ctx)
    (hds : ∀ d ∈ ds, ∃ ctx, p.context d = some ctx ∧ Leaf inits ctx) (hz : inboundAt p z)
    (hl : (ds ++ z :: rest).length ≤ p.nextContext) :
    fireChannelRegistered (invokeChannelRegistered inits closeCallback (fuel + (ds.filter (inboundAt p)).length)) c s =
      invokeChannelRegistered inits closeCallback fuel z (s.visited (registered (ds.filter (inboundAt p)))) := by
  induction ds generalizing c q s with
  | nil =>
    rw [fireChannelRegistered, Method.bind_apply, findContext_registered hp e ht hl, List.nil_append,
      List.find?_cons_of_pos hz, List.filter_nil, registered, List.map_nil, Passing.visited_nil]
    rfl
  | cons d ds ih =>
    have ht' : ∀ d ∈ ds ++ z :: rest, ∃ ctx, p.context d = some ctx ∧ Typed cls ctx := fun d' hd =>
      ht d' (List.mem_cons_of_mem _ hd)
    have hds' : ∀ d ∈ ds, ∃ ctx, p.context d = some ctx ∧ Leaf inits ctx := fun d' hd =>
      hds d' (List.mem_cons_of_mem _ hd)
    have hl' : (ds ++ z :: rest).length ≤ p.nextContext := (Nat.le_succ _).trans hl
    have e' : Ended p.next back (some d) (p.next d) (ds ++ z :: rest) := e.2.2
    obtain ⟨ctx, hctx, L⟩ := hds d List.mem_cons_self
    have hk : inboundAt p d = ctx.inbound_ := by rw [inboundAt, hctx, Option.any_some]
    rw [fireChannelRegistered, Method.bind_apply, findContext_registered hp e ht hl, List.cons_append]
    cases hi : ctx.inbound_ with
    | false =>
      have hn : ¬inboundAt p d := by simp [hk, hi]
      rw [List.find?_cons_of_neg hn, List.filter_cons_of_neg hn]
      -- from `d` on, the same is found
      have hd := ih hp e' ht' hds' hl'
      rwa [fireChannelRegistered, Method.bind_apply, findContext_registered hp e' ht' hl'] at hd
    | true =>
      have hn : inboundAt p d := by simp [hk, hi]
      obtain ⟨h, hh, -⟩ := (Option.any_eq_true _ _).mp (L.typed.1.symm.trans hi)
      obtain ⟨object, rfl⟩ := L.user h hh
      have hinit : inits.of (.user object) = none := by simpa [hh] using L.init
      rw [List.find?_cons_of_pos hn, List.filter_cons_of_pos hn, List.length_cons, ← Nat.add_assoc, Outcome.bind_ok]
      have hv := ih (s := s.visited (registered [d])) hp e' ht' hds' hl'
      rw [Passing.visited_visited] at hv
      exact (invoke_leaf (hp ▸ hctx) L.typed hi hh hinit rfl).trans hv

/-- From the head, over contexts without initializers, to the next that the event comes to. -/
theorem invoke_head {p : DefaultChannelPipeline} {xs zs rest : List Nat} {l : List ChannelHandlerContext} {z : Nat}
    (hp : s.called.pipeline = p) (C : Chained cls p xs l) (P : Populated cls l) (hx : xs ++ [tail_] = zs ++ z :: rest)
    (hzs : ∀ d ∈ zs, ∃ ctx, p.context d = some ctx ∧ Leaf inits ctx) (hz : inboundAt p z) :
    invokeChannelRegistered inits closeCallback (fuel + (zs.filter (inboundAt p)).length + 1) head_ s =
      invokeChannelRegistered inits closeCallback fuel z
        (s.visited (registered (head_ :: zs.filter (inboundAt p)))) := by
  have e := C.links
  have ht := C.typed P
  have hl : (xs ++ [tail_]).length ≤ p.nextContext := by
    have := C.length_le
    simp [C.length_eq]
    omega
  rw [hx] at e ht hl
  have hf := fire_leaves closeCallback fuel (s := s.visited (registered [head_])) hp e.2.2
    (fun d hd => ht d (List.mem_cons_of_mem _ hd)) hzs hz hl
  rw [Passing.visited_visited] at hf
  exact (invoke_leaf (hp ▸ C.head) (typed_headContext p.id) rfl rfl rfl rfl).trans hf

end ChannelInitializer

/-- A removal of a context that is found. -/
theorem DefaultChannelPipeline.Chained.remove_at {cls : Classes} {p : DefaultChannelPipeline} {xs : List Nat}
    {l : List ChannelHandlerContext} {matching : ChannelHandlerContext → Bool} {c : Nat} (C : Chained cls p xs l)
    (hc : xs.find? (fun c => (p.context c).any matching) = some c) :
    ∃ t, DefaultChannelPipeline.remove matching p = .ok () t ∧ t.id = p.id ∧ t.nextContext = p.nextContext ∧
      Chained cls t (xs.erase c) (l.eraseP matching) := by
  have hcx := List.mem_of_find?_eq_some hc
  obtain ⟨a, ha, b, hb, hca, hcb⟩ := C.neighbours hcx
  refine ⟨p.without a c b, ?_, rfl, rfl, C.without hcx hca hcb (eraseP_eq_erase hc)⟩
  rw [DefaultChannelPipeline.remove, Method.bind_apply, C.context0_eq, List.find?_append, hc]
  exact C.remove0_eq ha hb hca hcb

/-- The contexts of the front of a chain. -/
theorem DefaultChannelPipeline.Chained.contexts_append {cls : Classes} {p : DefaultChannelPipeline}
    {xs ys : List Nat} {l l' : List ChannelHandlerContext} (C : Chained cls p (xs ++ ys) (l ++ l'))
    (hl : xs.length = l.length) : xs.map p.context = l.map some ∧ ys.map p.context = l'.map some := by
  have h := C.contexts
  rw [List.map_append, List.map_append] at h
  exact List.append_inj h (by simpa using hl)

namespace ChannelInitializer

variable {cls : Classes} {ε κ : Type} {inits : Initializers cls} {closeCallback : κ} {c : Nat} {s : Passing ε κ}
  {ctx : ChannelHandlerContext} {h : ChannelHandler} {zs ys : List Nat} {lz lq : List ChannelHandlerContext}

/-- An initializer takes itself out. -/
theorem remove_eq (C : Chained cls s.called.pipeline (zs ++ c :: ys) (lz ++ ctx :: lq)) (hl : zs.length = lz.length)
    (hh : ctx.handler = some h) (hz : ∀ d ∈ lz, d.handler ≠ some h) :
    ∃ t : Called, remove h c s = .ok () { s with called := t } ∧ t.pipeline.id = s.called.pipeline.id ∧
      t.pipeline.nextContext = s.called.pipeline.nextContext ∧ Chained cls t.pipeline (zs ++ ys) (lz ++ lq) := by
  obtain ⟨hcz, hcq⟩ := C.contexts_append hl
  have hc : s.called.pipeline.context c = some ctx := (List.cons.inj hcq).1
  have hnz : ∀ z ∈ zs, ¬(s.called.pipeline.context z).any (handledBy (some h)) := by
    intro z hm
    have hm' : s.called.pipeline.context z ∈ lz.map some := hcz ▸ List.mem_map_of_mem hm
    obtain ⟨d, hd, he⟩ := List.mem_map.mp hm'
    rw [← he, Option.any_some, handledBy_iff]
    exact hz d hd
  have hfind : (zs ++ c :: ys).find? (fun c => (s.called.pipeline.context c).any (handledBy (some h))) = some c := by
    rw [List.find?_append, List.find?_eq_none.mpr hnz, Option.none_or, List.find?_cons_of_pos]
    rw [hc, Option.any_some, handledBy_iff, hh]
  obtain ⟨t, ht, hid, hnext, C'⟩ := C.remove_at hfind
  have herase : (zs ++ c :: ys).erase c = zs ++ ys := by
    have hcz : c ∉ zs := by
      intro hm
      have hn := C.nodup_tail.1
      rw [List.nodup_append] at hn
      exact hn.2.2 c hm c List.mem_cons_self rfl
    rw [List.erase_append_right _ hcz, List.erase_cons_head]
  have heraseP : (lz ++ ctx :: lq).eraseP (handledBy (some h)) = lz ++ lq := by
    rw [List.eraseP_append_right _ fun d hd hm => hz d hd (handledBy_iff.mp hm), List.eraseP_cons_of_pos]
    rw [handledBy_iff, hh]
  rw [herase, heraseP] at C'
  refine ⟨{ s.called with pipeline := t }, ?_, hid, hnext, C'⟩
  apply Passing.onCalled_ok
  apply Called.onPipeline_ok
  have hd : deref (some c) s.called.pipeline = .ok c s.called.pipeline := by simp [deref, hc]
  have h0 : context0 (handledBy (some h)) s.called.pipeline = .ok (some c) s.called.pipeline := by
    rw [C.context0_eq, List.find?_append, hfind]
    rfl
  simp only [Method.bind_apply, hd, Outcome.bind_ok, h0, Option.isSome_some, if_true, ht]

/-- An initializer whose additions have been made, and that does not throw, takes itself out. -/
theorem initChannel_ok {I : Initialization} {t : Called} {xs : List Nat} {new : List ChannelHandlerContext}
    (closeCallback : κ) (hadd : addAll cls I.additions s.called = .ok () t) (ht : I.throws = none)
    (C : Chained cls t.pipeline (zs ++ c :: ys ++ xs) (lz ++ ctx :: lq ++ new)) (hl : zs.length = lz.length)
    (hh : ctx.handler = some h) (hz : ∀ d ∈ lz, d.handler ≠ some h) :
    ∃ t' : Called, initChannel closeCallback cls I h c s = .ok true { s with called := t' } ∧
      t'.pipeline.id = t.pipeline.id ∧ t'.pipeline.nextContext = t.pipeline.nextContext ∧
      Chained cls t'.pipeline (zs ++ (ys ++ xs)) (lz ++ (lq ++ new)) := by
  rw [List.append_assoc, List.append_assoc, List.cons_append, List.cons_append] at C
  obtain ⟨t', hrem, hid, hnext, C'⟩ := remove_eq (s := { s with called := t }) C hl hh hz
  refine ⟨t', ?_, hid, hnext, C'⟩
  have hrun : onCalled (I.run cls) s = .ok () { s with called := t } := by
    apply Passing.onCalled_ok
    rw [Initialization.run, Method.bind_apply, hadd, Outcome.bind_ok, ht]
    rfl
  rw [initChannel, hrun]
  simp only [Method.bind_apply, hrem, Outcome.bind_ok]
  rfl

end ChannelInitializer

end Nio.Net
