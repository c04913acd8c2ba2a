import NioSocket.Lib.Trans
import NioSocket.Net.ReactorGroup

/-!
# Accepting connections

`ServerBootstrap` makes an acceptor for each call of `bind`. An acceptor starts one `async_accept`, and another one
when the handler of that runs: behind a connection, behind an error that passes, and behind any other error when the
addresses are bound again. The sockets of the connections belong to reactors that all acceptors of the server take
from one group in turn.
-/

namespace Nio.Net

/-- The types of the servers. -/
inductive ServerConnectionType
  | COMM_NET_SERVER_TCP
  | COMM_NET_SERVER_SCTP
  deriving DecidableEq

/-- The error codes that `handleAccept` tells apart, and that a socket which is closed reports. -/
inductive AcceptError
  | would_block
  | try_again
  | connection_aborted
  | interrupted
  | operation_aborted
  | bad_descriptor
  | other (value : Int)
  deriving DecidableEq

/-- `doesNeedRetry(error)`. -/
def AcceptError.doesNeedRetry (error : AcceptError) : Bool :=
  error == .would_block || error == .try_again || error == .connection_aborted || error == .interrupted

/-- The network, as it is at the time of a call: what a host and a port are resolved to, and what the constructor of a
listening socket throws. -/
structure Network (ε : Type) where
  resolve : String → String → Option (List ε)
  listen : List ε → Option String

/-- An `async_accept` whose handler was not called. -/
structure Accept where
  childReactor : Nat
  /-- What the handler is to be called with, once that is known. -/
  result : Option (Option AcceptError)
  deriving DecidableEq

/-- The socket that the acceptor has is closed or replaced. -/
def Accept.abort (a : Accept) : Accept :=
  if a.result.isNone then { a with result := some (some .operation_aborted) } else a

/-- `NioTcpConnectionAcceptor` or `NioSctpConnectionAcceptor`; of `acceptor_`, whether it is open. -/
structure ConnectionAcceptor where
  type_ : ServerConnectionType
  hosts_ : List String
  port_ : String
  acceptor_ : Option Bool
  accepts : List Accept
  deriving DecidableEq

/-- An acceptor, and what it shares with the others of its server: the group, how many reactors that has given, and the
connections that were set up, by their reactors. -/
structure Accepting where
  acceptor : ConnectionAcceptor
  childGroup_ : NioEventReactorGroup
  turns : Nat
  connections : List Nat

namespace ConnectionAcceptor

variable {ε : Type} (net : Network ε)

/-- An acceptor that was not bound. -/
def new (type_ : ServerConnectionType) : ConnectionAcceptor := ⟨type_, [], "", none, []⟩

/-- A change of the acceptor alone. -/
def onAcceptor (f : ConnectionAcceptor → ConnectionAcceptor) : Method Accepting Unit :=
  .modify fun s => { s with acceptor := f s.acceptor }

/-- `childGroup_->next()`. One that returns is a turn. -/
def nextReactor : Method Accepting Nat := fun s =>
  match s.childGroup_.next with
  | .ok reactor g => .ok reactor { s with childGroup_ := g, turns := s.turns + 1 }
  | .throw what g => .throw what { s with childGroup_ := g }
  | .ub => .ub
  | .hang => .hang

/-- `startAccept()`: on a socket that is closed the accept fails. -/
def startAccept : Method Accepting Unit := do
  match ← .get fun s => s.acceptor.acceptor_ with
  | none => pure ()
  | some isOpen =>
    let childReactor ← nextReactor
    onAcceptor fun a => { a with
      accepts := a.accepts ++ [⟨childReactor, if isOpen then none else some (some .bad_descriptor)⟩] }

/-- `resolverAddresses(endpoints)`. -/
def resolverAddresses : Method Accepting (List ε) :=
  .get fun s => s.acceptor.hosts_.flatMap fun host => (net.resolve host s.acceptor.port_).getD []

/-- `acceptor_.reset(new acceptor(…))`. -/
def reset (endpoints : List ε) : Method Accepting Unit :=
  match net.listen endpoints with
  | some what => .throw what
  | none => onAcceptor fun a => { a with acceptor_ := some true, accepts := a.accepts.map Accept.abort }

/-- Both `bindAddress(endpoints)`; that of SCTP takes the protocol of the first endpoint. -/
def bindAddress (endpoints : List ε) : Method Accepting Unit := do
  match ← .get fun s => s.acceptor.type_, endpoints with
  | .COMM_NET_SERVER_TCP, [] => pure ()
  | .COMM_NET_SERVER_TCP, endpoint :: _ => reset net [endpoint]
  | .COMM_NET_SERVER_SCTP, [] => fun _ => .ub
  | .COMM_NET_SERVER_SCTP, endpoints => reset net endpoints

/-- `doBind()`. -/
def doBind : Method Accepting Unit := do
  let endpoints ← resolverAddresses net
  bindAddress net endpoints

/-- `bind(hosts, port)`. -/
def bind (hosts : List String) (port : String) : Method Accepting Unit := do
  onAcceptor fun a => { a with hosts_ := hosts, port_ := port }
  doBind net

/-- `bind(host, port)`. -/
def bindHost (host port : String) : Method Accepting Unit := do
  onAcceptor fun a => { a with hosts_ := a.hosts_ ++ [host], port_ := port }
  doBind net

/-- `restartBind()`. -/
def restartBind : Method Accepting Unit := do
  doBind net
  startAccept

/-- `fireNewConnection(newConnection(sock, childReactor))`. What the handlers of the connection throw is caught by the
pipeline. -/
def fireNewConnection (childReactor : Nat) : Method Accepting Unit := do
  .modify fun s => { s with connections := s.connections ++ [childReactor] }
  startAccept

/-- `acceptor_->cancel(ec)` and `acceptor_->close(ec)`. -/
def close : Method Accepting Unit := fun s =>
  match s.acceptor.acceptor_ with
  | some _ => onAcceptor (fun a => { a with acceptor_ := some false, accepts := a.accepts.map Accept.abort }) s
  | none => .ub

/-- `handleAccept(error, sock, childReactor)`. -/
def handleAccept (error : Option AcceptError) (childReactor : Nat) : Method Accepting Unit :=
  match error with
  | some e =>
    if e.doesNeedRetry then startAccept
    else do
      close
      restartBind net
  | none => fireNewConnection childReactor

/-- What a call leaves that returns or throws: the reactor that runs a handler catches what it throws. -/
def left {σ : Type} : Outcome σ Unit → Option σ
  | .ok _ s | .throw _ s => some s
  | .ub | .hang => none

end ConnectionAcceptor

/-- A `ServerBootstrap`, with the acceptors that it has made. -/
structure ServerBootstrap where
  type_ : ServerConnectionType
  group_ : NioEventReactorGroup
  childGroup_ : NioEventReactorGroup
  /-- How many reactors `childGroup_` has given. -/
  turns : Nat
  /-- An acceptor lives on in the handler of its accept when the next one is made. -/
  acceptors : List ConnectionAcceptor
  connections : List Nat

namespace ServerBootstrap

open ConnectionAcceptor (left handleAccept)

variable {ε : Type}

/-- `ServerBootstrap().group(group, childGroup)`, on groups of so many reactors. -/
def new (m n : Int) : ServerBootstrap := ⟨.COMM_NET_SERVER_SCTP, .init 0 m, .init 0 n, 0, [], []⟩

/-- A call on acceptor `i`. -/
def onAcceptor (i : Nat) (m : Method Accepting Unit) : Method ServerBootstrap Unit := fun s =>
  match s.acceptors[i]? with
  | none => .ub
  | some a =>
    match m ⟨a, s.childGroup_, s.turns, s.connections⟩ with
    | .ok _ t => .ok () { s with
        childGroup_ := t.childGroup_, turns := t.turns, acceptors := s.acceptors.set i t.acceptor,
        connections := t.connections }
    | .throw what t => .throw what { s with
        childGroup_ := t.childGroup_, turns := t.turns, acceptors := s.acceptors.set i t.acceptor,
        connections := t.connections }
    | .ub => .ub
    | .hang => .hang

/-- `init()`. -/
def init : Method ServerBootstrap Nat := fun s =>
  match s.group_.next with
  | .ok _ g => .ok s.acceptors.length { s with group_ := g, acceptors := s.acceptors ++ [.new s.type_] }
  | .throw what g => .throw what { s with group_ := g }
  | .ub => .ub
  | .hang => .hang

/-- Both `bind`s. -/
def bind (binds : Method Accepting Unit) : Method ServerBootstrap Unit := do
  let i ← init
  onAcceptor i do
    binds
    ConnectionAcceptor.startAccept

end ServerBootstrap

/-- What a program does with a server, and what its sockets do. -/
inductive ServerEvent (ε : Type)
  | connection (type : ServerConnectionType)
  | bind (hosts : List String) (port : String) (net : Network ε)
  | bindHost (host port : String) (net : Network ε)
  /-- Accept `k` of acceptor `i` has a connection, or an error. -/
  | ready (i k : Nat) (result : Option AcceptError)
  /-- Its handler is called. -/
  | handle (i k : Nat) (net : Network ε)

namespace ServerBootstrap

open ConnectionAcceptor (left handleAccept)

variable {ε : Type}

/-- The accept gets its result, if it has none. -/
def ready (i k : Nat) (result : Option AcceptError) (s : ServerBootstrap) : Option ServerBootstrap := do
  let a ← s.acceptors[i]?
  let x ← a.accepts[k]?
  if x.result.isNone then
    some { s with
      acceptors := s.acceptors.set i { a with accepts := a.accepts.set k { x with result := some result } } }
  else none

/-- What an event comes to, if it can happen. -/
def next (s : ServerBootstrap) : ServerEvent ε → Option ServerBootstrap
  | .connection type => some { s with type_ := type }
  | .bind hosts port net => left (bind (ConnectionAcceptor.bind net hosts port) s)
  | .bindHost host port net => left (bind (ConnectionAcceptor.bindHost net host port) s)
  | .ready i k result => ready i k result s
  | .handle i k net => do
    let a ← s.acceptors[i]?
    let x ← a.accepts[k]?
    let error ← x.result
    let u ← left (handleAccept net error x.childReactor
      ⟨{ a with accepts := a.accepts.eraseIdx k }, s.childGroup_, s.turns, s.connections⟩)
    some { s with
      childGroup_ := u.childGroup_, turns := u.turns, acceptors := s.acceptors.set i u.acceptor,
      connections := u.connections }

/-- An event that happens. -/
def Step (s : ServerBootstrap) (e : ServerEvent ε) (s' : ServerBootstrap) : Prop := s.next e = some s'

end ServerBootstrap

/-! ## One acceptor -/

namespace ConnectionAcceptor

variable {ε : Type} {net : Network ε} {s t : Accepting} {a : ConnectionAcceptor}

/-- What is listened on, of the endpoints that there are. -/
def chosen : ServerConnectionType → List ε → List ε
  | .COMM_NET_SERVER_TCP, endpoints => endpoints.take 1
  | .COMM_NET_SERVER_SCTP, endpoints => endpoints

/-- What the acceptor listens on, if it binds its addresses. -/
def listened (net : Network ε) (a : ConnectionAcceptor) : List ε :=
  chosen a.type_ (a.hosts_.flatMap fun host => (net.resolve host a.port_).getD [])

/-- A socket is made for its addresses, and its constructor throws. -/
def Refused (net : Network ε) (a : ConnectionAcceptor) : Prop :=
  a.listened net ≠ [] ∧ (net.listen (a.listened net)).isSome

/-- The acceptor starts another accept, of the next reactor, on the socket that it has. -/
inductive Starts (s : Accepting) : Accepting → Prop
  | unbound (h : s.acceptor.acceptor_ = none) : Starts s s
  | accept {isOpen : Bool} {r : Nat} {g : NioEventReactorGroup} (h : s.acceptor.acceptor_ = some isOpen)
      (hg : s.childGroup_.next = .ok r g) : Starts s { s with
        childGroup_ := g
        turns := s.turns + 1
        acceptor := { s.acceptor with
          accepts := s.acceptor.accepts ++ [⟨r, if isOpen then none else some (some .bad_descriptor)⟩] } }

/-- The acceptor binds its addresses and starts an accept. -/
inductive Rebinds (net : Network ε) (s : Accepting) : Accepting → Prop
  | refused (h : s.acceptor.Refused net) : Rebinds net s s
  | unresolved {t : Accepting} (h : s.acceptor.listened net = []) (hs : Starts s t) : Rebinds net s t
  | bound {t : Accepting} (h : s.acceptor.listened net ≠ []) (hn : ¬s.acceptor.Refused net)
      (hs : Starts { s with acceptor := { s.acceptor with
        acceptor_ := some true, accepts := s.acceptor.accepts.map Accept.abort } } t) : Rebinds net s t

/-- The handler of an accept is called. -/
inductive Handles (net : Network ε) (r : Nat) (s : Accepting) : Option AcceptError → Accepting → Prop
  | connection {t : Accepting} (hs : Starts { s with connections := s.connections ++ [r] } t) : Handles net r s none t
  | retry {e : AcceptError} {t : Accepting} (he : e.doesNeedRetry = true) (hs : Starts s t) : Handles net r s (some e) t
  | rebind {e : AcceptError} {t : Accepting} (he : e.doesNeedRetry = false) (hb : s.acceptor.acceptor_.isSome)
      (hs : Rebinds net { s with acceptor := { s.acceptor with
        acceptor_ := some false, accepts := s.acceptor.accepts.map Accept.abort } } t) : Handles net r s (some e) t

theorem starts (h : left (startAccept s) = some t) : Starts s t := by
  simp only [startAccept, Method.bind_apply, Method.get_apply, Outcome.bind_ok] at h
  cases ha : s.acceptor.acceptor_ with
  | none =>
    rw [ha] at h
    cases h
    exact .unbound ha
  | some isOpen =>
    simp only [ha, Method.bind_apply, nextReactor] at h
    cases hg : s.childGroup_.next with
    | ok r g =>
      rw [hg] at h
      cases h
      exact .accept ha hg
    | throw what g =>
      rw [NioEventReactorGroup.next] at hg
      split at hg <;> cases hg
    | ub | hang =>
      rw [hg] at h
      cases h

theorem bindAddress_cases (net : Network ε) (s : Accepting) (endpoints : List ε) :
    chosen s.acceptor.type_ endpoints = [] ∧
        (bindAddress net endpoints s = .ok () s ∨ bindAddress net endpoints s = .ub) ∨
      chosen s.acceptor.type_ endpoints ≠ [] ∧
        bindAddress net endpoints s = reset net (chosen s.acceptor.type_ endpoints) s := by
  rw [bindAddress, Method.bind_apply, Method.get_apply, Outcome.bind_ok]
  cases s.acceptor.type_ with
  | COMM_NET_SERVER_TCP =>
    cases endpoints with
    | nil => exact .inl ⟨rfl, .inl rfl⟩
    | cons endpoint endpoints => exact .inr ⟨List.cons_ne_nil endpoint [], rfl⟩
  | COMM_NET_SERVER_SCTP =>
    cases endpoints with
    | nil => exact .inl ⟨rfl, .inr rfl⟩
    | cons endpoint endpoints => exact .inr ⟨List.cons_ne_nil endpoint endpoints, rfl⟩

theorem rebinds (h : left ((do doBind net; startAccept : Method Accepting Unit) s) = some t) : Rebinds net s t := by
  rw [Method.bind_apply, doBind, Method.bind_apply, resolverAddresses, Method.get_apply, Outcome.bind_ok] at h
  rcases bindAddress_cases net s _ with ⟨hl, e | e⟩ | ⟨hl, e⟩
  · rw [e] at h
    exact .unresolved hl (starts h)
  · rw [e] at h
    cases h
  · rw [e, reset] at h
    cases hn : net.listen (chosen s.acceptor.type_ (s.acceptor.hosts_.flatMap fun host =>
        (net.resolve host s.acceptor.port_).getD [])) with
    | some what =>
      rw [hn] at h
      cases h
      exact .refused ⟨hl, by rw [listened, hn]; rfl⟩
    | none =>
      rw [hn] at h
      refine .bound hl (fun hr => ?_) (starts h)
      have hs := hr.2
      rw [listened, hn] at hs
      cases hs

theorem handles {r : Nat} {error : Option AcceptError} (h : left (handleAccept net error r s) = some t) :
    Handles net r s error t := by
  cases error with
  | none => exact .connection (starts h)
  | some e =>
    rw [handleAccept] at h
    cases he : e.doesNeedRetry with
    | true =>
      rw [if_pos he] at h
      exact .retry he (starts h)
    | false =>
      rw [if_neg (by simp [he]), Method.bind_apply, close] at h
      cases ha : s.acceptor.acceptor_ with
      | none =>
        rw [ha] at h
        cases h
      | some isOpen =>
        rw [ha] at h
        exact .rebind he (by rw [ha]; rfl) (rebinds h)

/-- An acceptor that listens has one accept under way. One whose socket is closed has none, or one that fails, and
one that was not bound has none. -/
structure Sound (a : ConnectionAcceptor) : Prop where
  listening : a.acceptor_ = some true → ∃ x, a.accepts = [x]
  closed : a.acceptor_ = some false → a.accepts = [] ∨ ∃ r, a.accepts = [⟨r, some (some .bad_descriptor)⟩]
  unbound : a.acceptor_ = none → a.accepts = []

theorem Sound.accepts_eq (h : a.Sound) {k : Nat} {x : Accept} (hx : a.accepts[k]? = some x) :
    k = 0 ∧ a.accepts = [x] ∧ a.acceptor_.isSome := by
  have hone : ∀ y, a.accepts = [y] → k = 0 ∧ a.accepts = [x] := by
    intro y hy
    rw [hy] at hx
    cases k with
    | zero =>
      cases hx
      exact ⟨rfl, hy⟩
    | succ k => cases hx
  have hne : a.accepts ≠ [] := by
    intro hn
    rw [hn] at hx
    cases hx
  cases ha : a.acceptor_ with
  | none => exact absurd (h.unbound ha) hne
  | some isOpen =>
    cases isOpen with
    | true =>
      obtain ⟨y, hy⟩ := h.listening ha
      exact ⟨(hone y hy).1, (hone y hy).2, rfl⟩
    | false =>
      obtain ⟨r, hy⟩ := (h.closed ha).resolve_left hne
      exact ⟨(hone _ hy).1, (hone _ hy).2, rfl⟩

/-- An accept is started by an acceptor that has none, if it has a socket. -/
theorem Starts.sound (h : Starts s t) (hs : s.acceptor.accepts = []) :
    t.acceptor.Sound ∧ (t.acceptor.accepts = [] ↔ s.acceptor.acceptor_ = none) := by
  cases h with
  | unbound h =>
    refine ⟨⟨fun hc => ?_, fun hc => ?_, fun _ => hs⟩, iff_of_true hs h⟩
    · rw [h] at hc; cases hc
    · rw [h] at hc; cases hc
  | @accept isOpen r g h hg =>
    refine ⟨⟨fun hc => ⟨_, by simp only [hs]; rfl⟩, fun hc => ?_, fun hc => ?_⟩, iff_of_false ?_ ?_⟩
    · obtain rfl : isOpen = false := Option.some.inj (h.symm.trans hc)
      exact .inr ⟨r, by simp only [hs]; rfl⟩
    · cases h.symm.trans hc
    · simp
    · rw [h]
      simp

/-- It is mute behind a binding that is refused, or without a socket when its addresses are not resolved. -/
theorem Rebinds.sound (h : Rebinds net s t) (hs : s.acceptor.accepts = []) (hc : s.acceptor.acceptor_ ≠ some true) :
    t.acceptor.Sound ∧ (t.acceptor.accepts = [] ↔
      s.acceptor.Refused net ∨ s.acceptor.listened net = [] ∧ s.acceptor.acceptor_ = none) := by
  cases h with
  | refused h => exact ⟨⟨fun ht => absurd ht hc, fun _ => .inl hs, fun _ => hs⟩, iff_of_true hs (.inl h)⟩
  | unresolved h st =>
    obtain ⟨hS, hm⟩ := st.sound hs
    refine ⟨hS, hm.trans ⟨fun hn => .inr ⟨h, hn⟩, ?_⟩⟩
    rintro (hr | hn)
    · exact absurd h hr.1
    · exact hn.2
  | bound h hn st =>
    obtain ⟨hS, hm⟩ := st.sound (by simp [hs])
    refine ⟨hS, iff_of_false (fun ht => ?_) ?_⟩
    · cases hm.mp ht
    · rintro (hr | hr)
      · exact hn hr
      · exact h hr.1

/-- Behind a handler the acceptor is mute if it has bound its addresses again and was refused. -/
theorem Handles.sound {r : Nat} {error : Option AcceptError} (h : Handles net r s error t)
    (hs : s.acceptor.accepts = []) (hb : s.acceptor.acceptor_.isSome) :
    t.acceptor.Sound ∧ (t.acceptor.accepts = [] ↔
      (∃ e, error = some e ∧ e.doesNeedRetry = false) ∧ s.acceptor.Refused net) := by
  have hne : s.acceptor.acceptor_ ≠ none := Option.isSome_iff_ne_none.mp hb
  cases h with
  | connection st =>
    obtain ⟨hS, hm⟩ := st.sound hs
    refine ⟨hS, iff_of_false (fun ht => hne (hm.mp ht)) ?_⟩
    rintro ⟨⟨e, he, -⟩, -⟩
    cases he
  | @retry e t he st =>
    obtain ⟨hS, hm⟩ := st.sound hs
    refine ⟨hS, iff_of_false (fun ht => hne (hm.mp ht)) ?_⟩
    rintro ⟨⟨e', he', hf⟩, -⟩
    cases he'
    rw [he] at hf
    cases hf
  | @rebind e t he _ st =>
    obtain ⟨hS, hm⟩ := st.sound (by simp [hs]) (by simp)
    refine ⟨hS, hm.trans ⟨?_, fun ht => .inl ht.2⟩⟩
    rintro (hr | hr)
    · exact ⟨⟨e, rfl, he⟩, hr⟩
    · cases hr.2

end ConnectionAcceptor

end Nio.Net
