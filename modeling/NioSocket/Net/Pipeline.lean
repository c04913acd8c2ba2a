import Mathlib.Logic.Function.Basic
import NioSocket.Lib.Outcome

/-!
# Channel pipelines

`DefaultChannelPipeline`: contexts in a doubly linked list, between a head and a tail that the
pipeline makes for itself. The contexts are numbered as they were made, the head `0` and the tail
`1`; a pointer to a context is a number, and one that is null or to a context that was deleted must
not be dereferenced. A name that a caller leaves empty is generated, with a cache that the pipelines
of a thread share.
-/

namespace Nio.Net

/-- A handler: an object of the application, or a context that is its own handler, of the pipeline
with that number. -/
inductive ChannelHandler
  | user (id : Nat)
  | headContext (pipeline : Nat)
  | tailContext (pipeline : Nat)
  deriving DecidableEq, Repr

/-- A class of handlers: what its `typeid` is called, and which interfaces a `dynamic_cast` finds. -/
structure HandlerClass where
  name : String
  inbound : Bool
  outbound : Bool
  deriving DecidableEq, Repr

/-- The classes of a program: those of the objects of the application, and what the two that are private
to a pipeline are called. -/
structure Classes where
  user : Nat → HandlerClass
  headContext : String
  tailContext : String

/-- The class of a handler. -/
def Classes.of (cls : Classes) : ChannelHandler → HandlerClass
  | .user id => cls.user id
  | .headContext _ => ⟨cls.headContext, true, true⟩
  | .tailContext _ => ⟨cls.tailContext, true, false⟩

/-- `AbstractChannelHandlerContext`, but for its links. -/
structure ChannelHandlerContext where
  name_ : String
  handler : Option ChannelHandler
  inbound_ : Bool
  outbound_ : Bool
  deriving DecidableEq, Repr

/-- `DefaultChannelHandlerContext(name, pipeline, handler)`; a null pointer is cast to null. -/
def ChannelHandlerContext.new (cls : Classes) (name : String) (handler : Option ChannelHandler) :
    ChannelHandlerContext :=
  ⟨name, handler, handler.any fun h => (cls.of h).inbound, handler.any fun h => (cls.of h).outbound⟩

/-- The contexts of a pipeline, linked both ways. -/
structure DefaultChannelPipeline where
  id : Nat
  context : Nat → Option ChannelHandlerContext
  next : Nat → Option Nat
  prev : Nat → Option Nat
  /-- The context that is made next. -/
  nextContext : Nat

namespace DefaultChannelPipeline

/-- `head_`. -/
def head_ : Nat := 0

/-- `tail_`. -/
def tail_ : Nat := 1

/-- `generateName0(clzName)`. -/
def generateName0 (clzName : String) : String := clzName ++ "#0"

/-- The context that the constructor makes for the head. -/
def headContext (cls : Classes) (id : Nat) : ChannelHandlerContext :=
  ⟨generateName0 cls.headContext, some (.headContext id), true, true⟩

/-- The one for the tail. -/
def tailContext (cls : Classes) (id : Nat) : ChannelHandlerContext :=
  ⟨generateName0 cls.tailContext, some (.tailContext id), true, false⟩

/-- `DefaultChannelPipeline(connection)`. -/
def new (cls : Classes) (id : Nat) : DefaultChannelPipeline where
  id := id
  context := Function.update (Function.update (fun _ => none) head_ (some (headContext cls id))) tail_
    (some (tailContext cls id))
  next := Function.update (fun _ => none) head_ (some tail_)
  prev := Function.update (fun _ => none) tail_ (some head_)
  nextContext := 2

/-! ## Links -/

/-- Dereferencing a pointer to a context. -/
def deref (ctx : Option Nat) : Method DefaultChannelPipeline Nat := fun p =>
  match ctx with
  | some c => if (p.context c).isSome then .ok c p else .ub
  | none => .ub

/-- `ctx->next = value`. -/
def setNext (ctx value : Option Nat) : Method DefaultChannelPipeline Unit := do
  let c ← deref ctx
  .modify fun p => { p with next := Function.update p.next c value }

/-- `ctx->prev = value`. -/
def setPrev (ctx value : Option Nat) : Method DefaultChannelPipeline Unit := do
  let c ← deref ctx
  .modify fun p => { p with prev := Function.update p.prev c value }

/-- `new DefaultChannelHandlerContext(…)`. -/
def newContext (ctx : ChannelHandlerContext) : Method DefaultChannelPipeline Nat := fun p =>
  .ok p.nextContext { p with
    context := Function.update p.context p.nextContext (some ctx)
    next := Function.update p.next p.nextContext none
    prev := Function.update p.prev p.nextContext none
    nextContext := p.nextContext + 1 }

/-- `delete ctx`. -/
def deleteContext (ctx : Nat) (p : DefaultChannelPipeline) : DefaultChannelPipeline :=
  { p with
    context := Function.update p.context ctx none
    next := Function.update p.next ctx none
    prev := Function.update p.prev ctx none }

/-- `addLast0(ctx)`. -/
def addLast0 (ctx : Nat) : Method DefaultChannelPipeline Unit := do
  let prev ← .get fun p => p.prev tail_
  setPrev (some ctx) prev
  setNext (some ctx) (some tail_)
  setNext prev (some ctx)
  setPrev (some tail_) (some ctx)

/-- `remove0(ctx)`. -/
def remove0 (ctx : Nat) : Method DefaultChannelPipeline Unit := do
  let prev ← .get fun p => p.prev ctx
  let next ← .get fun p => p.next ctx
  setNext prev next
  setPrev next prev
  .modify (deleteContext ctx)

/-! ## Searching -/

/-- The loop of `context0`, in `fuel` rounds. -/
def contextLoop (matching : ChannelHandlerContext → Bool) :
    Nat → Option Nat → Method DefaultChannelPipeline (Option Nat)
  | 0, _ => fun _ => .hang
  | _ + 1, none => pure none
  | fuel + 1, some c => fun p =>
    match p.context c with
    | some ctx => if matching ctx then .ok (some c) p else contextLoop matching fuel (p.next c) p
    | none => .ub

/-- Both `context0`s. As many rounds as contexts were made are enough, unless the links go round in a ring. -/
def context0 (matching : ChannelHandlerContext → Bool) : Method DefaultChannelPipeline (Option Nat) := fun p =>
  contextLoop matching (p.nextContext + 1) (p.next head_) p

/-- What `context0(name)` looks for. -/
def named (name : String) (ctx : ChannelHandlerContext) : Bool := ctx.name_ == name

/-- What `context0(handler)` looks for. -/
def handledBy (handler : Option ChannelHandler) (ctx : ChannelHandlerContext) : Bool := ctx.handler == handler

/-- Both `remove`s. -/
def remove (matching : ChannelHandlerContext → Bool) : Method DefaultChannelPipeline Unit := do
  match ← context0 matching with
  | some ctx => remove0 ctx
  | none => pure ()

/-- `get(name)`. -/
def get (name : String) : Method DefaultChannelPipeline (Option ChannelHandler) := do
  let ctx ← context0 (named name)
  .get fun p => (ctx.bind p.context).bind (·.handler)

/-- `s.c_str()`, read up to its first null character. -/
def cStr (s : String) : String := String.ofList (s.toList.takeWhile (· ≠ Char.ofNat 0))

/-- `checkDuplicateName(name)`. -/
def checkDuplicateName (name : String) : Method DefaultChannelPipeline Unit := do
  if (← context0 (named name)).isSome then Method.throw ("Duplicate handler name:" ++ cStr name)

end DefaultChannelPipeline

open DefaultChannelPipeline (context0 named newContext addLast0 checkDuplicateName generateName0)

/-! ## Names -/

/-- A pipeline that a thread calls, with the `nameCaches` of the thread. -/
structure Called where
  nameCaches : Option (String → Option String)
  pipeline : DefaultChannelPipeline

namespace Called

variable (cls : Classes)

/-- A call on the pipeline. -/
def onPipeline {α : Type} (m : Method DefaultChannelPipeline α) : Method Called α := fun s =>
  match m s.pipeline with
  | .ok a p => .ok a { s with pipeline := p }
  | .throw e p => .throw e { s with pipeline := p }
  | .ub => .ub
  | .hang => .hang

/-- The search of `generateName` for a name that is free, in `fuel` rounds from `i` on. A base name has
no null character, and memory for fewer contexts than `i` has values. -/
def nameLoop (baseName : String) : Nat → Nat → Method Called String
  | 0, _ => fun _ => .hang
  | fuel + 1, i => do
    let newName := baseName ++ toString i
    if (← onPipeline (context0 (named newName))).isNone then pure newName else nameLoop baseName fuel (i + 1)

/-- The part of `generateName` with the cache: a name that is found in it is not looked at. -/
def cachedName (handlerType : String) : Method Called String := fun s =>
  let cache := s.nameCaches.getD fun _ => none
  match cache handlerType with
  | none =>
    let name := generateName0 handlerType
    .ok name { s with nameCaches := some (Function.update cache handlerType (some name)) }
  | some _ => .ok "" { s with nameCaches := some cache }

/-- `name.substr(0, name.length() - 1)`. -/
def baseName (name : String) : String := String.ofList name.toList.dropLast

/-- `generateName(handler)`. One round more than there are contexts is enough. -/
def generateName (handler : Option ChannelHandler) : Method Called String :=
  match handler with
  | none => fun _ => .ub
  | some h => do
    let name ← cachedName (cls.of h).name
    if (← onPipeline (context0 (named name))).isSome then
      fun s => nameLoop (baseName name) (s.pipeline.nextContext + 1) 0 s
    else pure name

/-- `filterName(name, handler)`: a name that is given must be free. -/
def filterName (name : String) (handler : Option ChannelHandler) : Method Called String :=
  if name = "" then generateName cls handler
  else do
    onPipeline (checkDuplicateName name)
    pure name

/-- `addLast(name, handler)`. -/
def addLast (name : String) (handler : Option ChannelHandler) : Method Called Unit := do
  let name ← filterName cls name handler
  let ctx ← onPipeline (newContext (.new cls name handler))
  onPipeline (addLast0 ctx)

end Called

end Nio.Net
