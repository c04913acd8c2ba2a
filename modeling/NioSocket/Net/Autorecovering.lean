import NioSocket.Net.TcpConnection

/-!
# A connection that reconnects

`AutorecoveringConnection` wraps a `TcpConnection` and is the last handler of its pipeline:
`channelInactive` starts a timer, and the timer calls `connect` again. An attempt is a timer, a
resolver, a connect or a read that is under way (`attempts`). Until `stop()` an attempt is
followed by another one for ever, so there are as many as `connect` has been called.
-/

namespace Nio.Net

/-- What fires `channelInactive`. -/
def TcpEvent.fires : TcpEvent → Bool
  | .resolved ok => !ok
  | .connectFailed | .error => true
  | _ => false

/-- The data members of an `AutorecoveringConnection`. -/
structure AutorecoveringConnection where
  delegate_ : TcpConnection
  stopped_ : Bool
  retry_ : Bool
  /-- The connection is a handler of its own pipeline. -/
  added : Bool
  /-- The timers that have not expired. -/
  timers : Nat

namespace AutorecoveringConnection

/-- A call on `delegate_`. -/
def delegate (m : Method TcpConnection Unit) : Method AutorecoveringConnection Unit := fun t =>
  match m t.delegate_ with
  | .ok a d => .ok a { t with delegate_ := d }
  | .throw what d => .throw what { t with delegate_ := d }
  | .ub => .ub
  | .hang => .hang

/-- `pipeline()->addLast("AutorecoveringConnectionHandler", shared_from_this())`. -/
def addLast : Method AutorecoveringConnection Unit := fun t =>
  if t.added then .throw "Duplicate handler name:AutorecoveringConnectionHandler" t
  else .ok () { t with added := true }

/-- `connect(host, port)`: unless it tries again, it is added to the pipeline. -/
def connect : Method AutorecoveringConnection Unit := do
  if !(← .get fun t => t.retry_) then addLast
  delegate TcpConnection.connect

/-- `stop()`. -/
def stop : Method AutorecoveringConnection Unit := do
  .modify fun t => { t with stopped_ := true }
  delegate TcpEvent.stop.handle

/-- `connectToServerAfterSeconds(1)`. -/
def connectToServerAfterSeconds : Method AutorecoveringConnection Unit :=
  .modify fun t => { t with retry_ := true, timers := t.timers + 1 }

/-- `channelInactive(ctx)`. -/
def channelInactive : Method AutorecoveringConnection Unit := do
  if !(← .get fun t => t.stopped_) then connectToServerAfterSeconds

/-- The timer expires. -/
def doReconnect : Method AutorecoveringConnection Unit := fun t => connect { t with timers := t.timers - 1 }

/-- A call of the resolver, the connect or the read of the delegate, or of one of its handlers. -/
def completed (e : TcpEvent) : Method AutorecoveringConnection Unit := do
  delegate e.handle
  if e.fires then channelInactive

end AutorecoveringConnection

/-- What a program calls, and what completes. -/
inductive AutorecoveringEvent
  /-- `connect(host, port)`, which returns. -/
  | connect
  /-- `connect(host, port)`, which throws. -/
  | refused
  | stop
  | timer
  | tcp (e : TcpEvent)
  deriving DecidableEq

namespace AutorecoveringEvent

/-- The delegate is connected and stopped by its owner alone. -/
def Enabled (t : AutorecoveringConnection) : AutorecoveringEvent → Prop
  | .connect | .refused | .stop => True
  | .timer => 0 < t.timers
  | .tcp e => e ≠ .connect ∧ e ≠ .stop ∧ e.Enabled t.delegate_

instance (t : AutorecoveringConnection) (e : AutorecoveringEvent) : Decidable (e.Enabled t) :=
  match e with
  | .connect | .refused | .stop => inferInstanceAs (Decidable True)
  | .timer => inferInstanceAs (Decidable (_ < _))
  | .tcp _ => inferInstanceAs (Decidable (_ ∧ _))

/-- What the connection does at an event. -/
def handle : AutorecoveringEvent → Method AutorecoveringConnection Unit
  | .connect | .refused => AutorecoveringConnection.connect
  | .stop => AutorecoveringConnection.stop
  | .timer => AutorecoveringConnection.doReconnect
  | .tcp e => AutorecoveringConnection.completed e

/-- The state a call leaves that ends the way the event says. -/
def result (e : AutorecoveringEvent) (t : AutorecoveringConnection) : Option AutorecoveringConnection :=
  match e, e.handle t with
  | .refused, .throw _ u => some u
  | .refused, _ => none
  | _, o => o.ok?

end AutorecoveringEvent

namespace TcpConnection

variable {t t' : TcpConnection} {e : TcpEvent} {m : Method Connection Unit}

theorem on_eq_ok (h : on m t = .ok () t') : ∃ w, m t.connection = .ok () w ∧ t' = { t with connection := w } := by
  unfold on at h
  split at h
  · cases h
    exact ⟨_, by assumption, rfl⟩
  all_goals cases h

theorem posts_eq_ok (h : posts m t = .ok () t') :
    ∃ w, m t.connection = .ok () w ∧ t' = { t with connection := w, reading := true } := by
  obtain ⟨_, s, h₁, h₂⟩ := Outcome.bind_eq_ok h
  obtain ⟨w, hw, rfl⟩ := on_eq_ok h₁
  cases h₂
  exact ⟨w, hw, rfl⟩

theorem Inv.of_close (h : Inv t) (hc : on TcpConnection.close t = .ok () t') :
    ∃ w, w.connected_ = false ∧ t' = { t with connection := w } := by
  obtain ⟨w, hw, rfl⟩ := on_eq_ok hc
  obtain ⟨w', hw', hl⟩ := close_left h.ok h.held
  cases hw'.symm.trans hw
  exact ⟨w, by rw [hl.connected]; simp, rfl⟩

/-- What is under way on a socket. -/
def attempts (t : TcpConnection) : Nat := t.resolving + t.connecting + t.reading.toNat

/-- How many more completions the attempts of a socket can have. -/
def weight (t : TcpConnection) : Nat := 3 * t.resolving + 2 * t.connecting + t.reading.toNat

/-- A connection that nobody accepts and that reads while it is connected. -/
structure Reads (t : TcpConnection) : Prop where
  inv : Inv t
  accepted : t.accepted = false
  reads : t.connection.connected_ = true → t.reading = true

end TcpConnection

/-- What ends an attempt, or takes it on. -/
def TcpEvent.completes : TcpEvent → Bool
  | .resolved _ | .connectFailed | .connected _ | .error => true
  | _ => false

/-- Something that was under way completes. -/
def AutorecoveringEvent.completes : AutorecoveringEvent → Bool
  | .timer => true
  | .tcp e => e.completes
  | _ => false

namespace TcpConnection

variable {t t' : TcpConnection} {e : TcpEvent}

/-- What an event of the socket or of a handler leaves. -/
structure Moved (t : TcpConnection) (e : TcpEvent) (t' : TcpConnection) : Prop where
  reads : Reads t'
  stopped : t'.stopped_ = t.stopped_
  attempts : t.attempts = t'.attempts + e.fires.toNat
  weight : t'.weight + e.completes.toNat ≤ t.weight

theorem Inv.of_handle (h : Inv t) (he : e.Enabled t) (hs : e.handle t = .ok () t') : e.Meets t ∧ Inv t' := by
  by_cases hm : e.Meets t
  · obtain ⟨u, hu, hi⟩ := h.handle he hm
    cases hu.symm.trans hs
    exact ⟨hm, hi⟩
  · cases (h.handle_ub he hm).symm.trans hs

/-- `connect` adds an attempt, unless the connection is stopped. -/
theorem Reads.connect (h : Reads t) : ∃ w, w.connected_ = false ∧
    connect t = .ok () { t with connection := w, resolving := t.resolving + (!t.stopped_).toNat } ∧
    Reads { t with connection := w, resolving := t.resolving + (!t.stopped_).toNat } := by
  obtain ⟨w, hw, hi⟩ := h.inv.close
  obtain ⟨w', hc, e⟩ := h.inv.of_close hw
  cases e
  refine ⟨w, hc, ?_, ⟨hi.ok, hi.held⟩, h.accepted, fun hc' => by simp [hc] at hc'⟩
  rw [TcpConnection.connect, Method.bind_apply, hw, Outcome.bind_ok, Method.modify_apply]
  cases hs : t.stopped_ <;> simp

theorem Reads.moved (h : Reads t) (hc : e ≠ .connect) (hst : e ≠ .stop) (he : e.Enabled t)
    (hs : e.handle t = .ok () t') : Moved t e t' := by
  obtain ⟨hm, hi⟩ := h.inv.of_handle he hs
  have ha := h.accepted
  cases e with
  | connect => exact absurd rfl hc
  | stop => exact absurd rfl hst
  | resolved ok =>
    have hpos : 0 < t.resolving := he
    cases hs
    cases ok with
    | false =>
      refine ⟨⟨hi, ha, h.reads⟩, rfl, ?_, ?_⟩ <;>
        simp [attempts, weight, TcpEvent.fires, TcpEvent.completes] <;> omega
    | true =>
      refine ⟨⟨hi, ha, h.reads⟩, rfl, ?_, ?_⟩ <;>
        simp [attempts, weight, TcpEvent.fires, TcpEvent.completes] <;> omega
  | connectFailed =>
    have hpos : 0 < t.connecting := he
    cases hs
    refine ⟨⟨hi, ha, h.reads⟩, rfl, ?_, ?_⟩ <;>
      simp [attempts, weight, TcpEvent.fires, TcpEvent.completes] <;> omega
  | connected closes =>
    obtain ⟨hpos, -, hr⟩ := he
    obtain ⟨w, -, rfl⟩ := posts_eq_ok hs
    refine ⟨⟨hi, ha, fun _ => rfl⟩, rfl, ?_, ?_⟩ <;>
      simp [attempts, weight, TcpEvent.fires, TcpEvent.completes, hr] <;> omega
  | start closes =>
    have ha' : t.accepted = true := he
    simp [ha] at ha'
  | read n as =>
    have hr : t.reading = true := he.1
    obtain ⟨w, -, rfl⟩ := posts_eq_ok hs
    refine ⟨⟨hi, ha, fun _ => rfl⟩, rfl, ?_, ?_⟩ <;>
      simp [attempts, weight, TcpEvent.fires, TcpEvent.completes, hr]
  | error =>
    have hr : t.reading = true := he
    obtain ⟨w, hw, rfl⟩ := Inv.of_close (t := { t with reading := false }) ⟨h.inv.ok, h.inv.held⟩ hs
    refine ⟨⟨hi, ha, fun hc => by simp [hw] at hc⟩, rfl, ?_, ?_⟩ <;>
      simp [attempts, weight, TcpEvent.fires, TcpEvent.completes, hr]
  | close =>
    obtain ⟨w, hw, rfl⟩ := h.inv.of_close hs
    refine ⟨⟨hi, ha, fun hc => by simp [hw] at hc⟩, rfl, ?_, ?_⟩ <;>
      simp [attempts, weight, TcpEvent.fires, TcpEvent.completes]

end TcpConnection

namespace AutorecoveringConnection

variable {t t' u : AutorecoveringConnection} {e : AutorecoveringEvent} {es : List AutorecoveringEvent}

/-- As `ConnectionFactory` makes a connection. -/
def Started (t : AutorecoveringConnection) : Prop :=
  ∃ d, TcpConnection.Started d ∧ d.accepted = false ∧ t = ⟨d, false, false, false, 0⟩

/-- An event that the connection deals with. -/
structure Step (t : AutorecoveringConnection) (e : AutorecoveringEvent) (t' : AutorecoveringConnection) : Prop where
  enabled : e.Enabled t
  handled : e.result t = some t'

/-- The connection is up. -/
def connected (t : AutorecoveringConnection) : Bool := t.delegate_.connection.connected_

/-- What is under way. -/
def attempts (t : AutorecoveringConnection) : Nat := t.timers + t.delegate_.attempts

/-- How many more completions there can be once the connection is stopped. -/
def weight (t : AutorecoveringConnection) : Nat := t.timers + t.delegate_.weight

/-- What holds between the events. -/
structure Inv (t : AutorecoveringConnection) : Prop where
  reads : t.delegate_.Reads
  stopped : t.delegate_.stopped_ = t.stopped_
  retry : 0 < t.timers → t.retry_ = true

/-! ## Steps -/

theorem delegate_eq_ok {m : Method TcpConnection Unit} (h : delegate m t = .ok () u) :
    ∃ d, m t.delegate_ = .ok () d ∧ u = { t with delegate_ := d } := by
  unfold delegate at h
  split at h
  · cases h
    exact ⟨_, by assumption, rfl⟩
  all_goals cases h

theorem delegate_ok {m : Method TcpConnection Unit} {d : TcpConnection} (h : m t.delegate_ = .ok () d) :
    delegate m t = .ok () { t with delegate_ := d } := by
  rw [delegate, h]

/-- What `connect` leaves. -/
structure Connects (t u : AutorecoveringConnection) : Prop where
  inv : Inv u
  stopped : u.stopped_ = t.stopped_
  timers : u.timers = t.timers
  resolving : u.delegate_.resolving = t.delegate_.resolving + (!t.stopped_).toNat
  connecting : u.delegate_.connecting = t.delegate_.connecting
  reading : u.delegate_.reading = t.delegate_.reading
  closed : u.connected = false

theorem Connects.attempts (h : Connects t u) : u.attempts = t.attempts + (!t.stopped_).toNat := by
  simp only [AutorecoveringConnection.attempts, TcpConnection.attempts, h.timers, h.resolving, h.connecting,
    h.reading]
  omega

theorem Connects.weight (h : Connects t u) : u.weight = t.weight + 3 * (!t.stopped_).toNat := by
  simp only [AutorecoveringConnection.weight, TcpConnection.weight, h.timers, h.resolving, h.connecting, h.reading]
  omega

theorem Inv.delegate_connect (h : Inv t) : ∃ u, delegate TcpConnection.connect t = .ok () u ∧ Connects t u := by
  obtain ⟨w, hw, e, hr⟩ := h.reads.connect
  exact ⟨_, delegate_ok e, ⟨hr, h.stopped, h.retry⟩, rfl, rfl, by rw [← h.stopped], rfl, rfl, hw⟩

theorem Inv.connect (h : Inv t) (ha : t.retry_ = false → t.added = false) :
    ∃ u, connect t = .ok () u ∧ Connects t u := by
  cases hr : t.retry_ with
  | true =>
    obtain ⟨u, e, hc⟩ := h.delegate_connect
    refine ⟨u, ?_, hc⟩
    simpa [AutorecoveringConnection.connect, Method.bind_apply, hr, Method.ite_apply] using e
  | false =>
    have h' : Inv { t with added := true } := ⟨h.reads, h.stopped, h.retry⟩
    obtain ⟨u, e, hc⟩ := h'.delegate_connect
    refine ⟨u, ?_, { hc with }⟩
    simpa [AutorecoveringConnection.connect, Method.bind_apply, hr, Method.ite_apply, addLast, ha hr] using e

theorem connect_throw (hr : t.retry_ = false) (ha : t.added = true) :
    connect t = .throw "Duplicate handler name:AutorecoveringConnectionHandler" t := by
  simp [connect, Method.bind_apply, hr, ha, addLast]

/-- What a step leaves. -/
structure Stepped (t : AutorecoveringConnection) (e : AutorecoveringEvent) (u : AutorecoveringConnection) : Prop where
  inv : Inv u
  stopped : u.stopped_ = (t.stopped_ || decide (e = .stop))
  attempts : u.stopped_ = false → u.attempts = t.attempts + if e = .connect then 1 else 0
  weight : t.stopped_ = true → u.weight + e.completes.toNat ≤ t.weight

theorem completed_ok {e : TcpEvent} {d : TcpConnection} (hd : e.handle t.delegate_ = .ok () d) :
    completed e t = .ok () (if e.fires && !t.stopped_ then
      { t with delegate_ := d, retry_ := true, timers := t.timers + 1 } else { t with delegate_ := d }) := by
  rw [completed, Method.bind_apply, delegate_ok hd, Outcome.bind_ok]
  cases hf : e.fires with
  | false => rfl
  | true => cases t.stopped_ <;> simp [channelInactive, Method.bind_apply, connectToServerAfterSeconds]

theorem completed_eq_ok {e : TcpEvent} (hs : completed e t = .ok () u) : ∃ d, e.handle t.delegate_ = .ok () d ∧
    u = if e.fires && !t.stopped_ then { t with delegate_ := d, retry_ := true, timers := t.timers + 1 }
      else { t with delegate_ := d } := by
  obtain ⟨_, t₁, h₁, -⟩ := Outcome.bind_eq_ok hs
  obtain ⟨d, hd, rfl⟩ := delegate_eq_ok h₁
  cases (completed_ok hd).symm.trans hs
  exact ⟨d, hd, rfl⟩

theorem Inv.completed {e : TcpEvent} (h : Inv t) (he : AutorecoveringEvent.Enabled t (.tcp e))
    (hs : completed e t = .ok () u) : Stepped t (.tcp e) u := by
  obtain ⟨d, hd, rfl⟩ := completed_eq_ok hs
  have hm := h.reads.moved he.1 he.2.1 he.2.2 hd
  have hst : d.stopped_ = t.stopped_ := hm.stopped.trans h.stopped
  have ha := hm.attempts
  have hw := hm.weight
  split
  · -- `channelInactive` starts a timer
    obtain ⟨hf, ht⟩ : e.fires = true ∧ t.stopped_ = false := by simp_all
    refine ⟨⟨hm.reads, hst, fun _ => rfl⟩, by simp, fun _ => ?_, fun hs => ?_⟩
    · simp [AutorecoveringConnection.attempts, ha, hf]
      omega
    · simp [ht] at hs
  · refine ⟨⟨hm.reads, hst, h.retry⟩, by simp, fun hs => ?_, fun hs => ?_⟩
    · have ht : t.stopped_ = false := hs
      have hf : e.fires = false := by simp_all
      simp [AutorecoveringConnection.attempts, ha, hf]
    · simp only [AutorecoveringConnection.weight, AutorecoveringEvent.completes]
      omega

/-- A call of `connect` that returns. -/
theorem Inv.of_connect (h : Inv t) (hs : AutorecoveringConnection.connect t = .ok () u) : Connects t u := by
  by_cases ha : t.retry_ = false ∧ t.added = true
  · cases (connect_throw ha.1 ha.2).symm.trans hs
  · obtain ⟨u', e, hc⟩ := h.connect fun hr => by simpa [hr] using ha
    cases e.symm.trans hs
    exact hc

theorem Inv.step (h : Inv t) (hs : Step t e u) : Stepped t e u := by
  obtain ⟨he, hr⟩ := hs
  cases e with
  | connect =>
    have hc := h.of_connect (Outcome.ok?_eq_some.mp hr)
    refine ⟨hc.inv, by simp [hc.stopped], fun hs => ?_, fun hs => ?_⟩
    · have ht : t.stopped_ = false := hc.stopped.symm.trans hs
      simp [hc.attempts, ht]
    · simp [hc.weight, hs, AutorecoveringEvent.completes]
  | refused =>
    have ha : t.retry_ = false ∧ t.added = true := by
      by_contra ha
      obtain ⟨u', e, -⟩ := h.connect fun hr => by simpa [hr] using ha
      simp [AutorecoveringEvent.result, AutorecoveringEvent.handle, e] at hr
    obtain rfl : t = u := by
      simpa [AutorecoveringEvent.result, AutorecoveringEvent.handle, connect_throw ha.1 ha.2] using hr
    exact ⟨h, by simp, fun _ => by simp, fun _ => Nat.le_refl _⟩
  | stop =>
    obtain rfl : { t with stopped_ := true, delegate_ := { t.delegate_ with stopped_ := true } } = u :=
      Option.some.inj hr
    refine ⟨⟨⟨⟨h.reads.inv.ok, h.reads.inv.held⟩, h.reads.accepted, h.reads.reads⟩, rfl, h.retry⟩, by simp, ?_,
      fun _ => Nat.le_refl _⟩
    intro hs
    cases hs
  | timer =>
    have hpos : 0 < t.timers := he
    have h' : Inv { t with timers := t.timers - 1 } := ⟨h.reads, h.stopped, fun _ => h.retry hpos⟩
    have hc := h'.of_connect (Outcome.ok?_eq_some.mp hr)
    have ha := hc.attempts
    have hw := hc.weight
    simp only [AutorecoveringConnection.attempts, AutorecoveringConnection.weight] at ha hw
    refine ⟨hc.inv, by simp [hc.stopped], fun hs => ?_, fun hs => ?_⟩
    · have ht : t.stopped_ = false := hc.stopped.symm.trans hs
      simp [AutorecoveringConnection.attempts, ha, ht]
      omega
    · simp [AutorecoveringConnection.weight, hw, hs, AutorecoveringEvent.completes]
      omega
  | tcp e => exact h.completed he (Outcome.ok?_eq_some.mp hr)

theorem Started.inv (h : Started t) : Inv t ∧ t.attempts = 0 := by
  obtain ⟨d, hd, ha, rfl⟩ := h
  have hi := TcpConnection.started_inv hd
  obtain ⟨c, w, accepted, -, rfl⟩ := hd
  obtain rfl : accepted = false := ha
  exact ⟨⟨⟨hi, rfl, fun hc => by cases hc⟩, rfl, fun ht => absurd ht (Nat.lt_irrefl 0)⟩, rfl⟩

/-! ## Runs -/

/-! Runs that compute -/

/-- A step that computes. -/
def next (t : AutorecoveringConnection) (e : AutorecoveringEvent) : Option AutorecoveringConnection :=
  if e.Enabled t then e.result t else none

theorem step_of_next (h : next t e = some u) : Step t e u := by
  unfold next at h
  split at h
  · exact ⟨‹_›, h⟩
  · cases h

/-- A connection that was not connected yet. -/
def start (d : LengthFieldBasedFrameDecoder) : Option AutorecoveringConnection :=
  (TcpConnection.start d false).map fun c => ⟨c, false, false, false, 0⟩

theorem exists_run {P : AutorecoveringConnection → Prop} [DecidablePred P] (d : LengthFieldBasedFrameDecoder)
    (es : List AutorecoveringEvent) (h : ((start d).bind (es.foldlM next)).any (P ·) = true) :
    ∃ t₀ t, Started t₀ ∧ Run Step t₀ es t ∧ P t := by
  obtain ⟨t, ht, hP⟩ := (Option.any_eq_true _ _).mp h
  obtain ⟨t₀, h0, hrun⟩ := Option.bind_eq_some_iff.mp ht
  obtain ⟨c, hc, rfl⟩ := Option.map_eq_some_iff.mp h0
  obtain ⟨w, hw, rfl⟩ := Option.map_eq_some_iff.mp hc
  exact ⟨_, t, ⟨_, ⟨d, w, false, Outcome.ok?_eq_some.mp hw, rfl⟩, rfl, rfl⟩,
    .of_next (fun _ _ _ => step_of_next) hrun, of_decide_eq_true hP⟩

theorem Inv.run (h : Inv t) (hr : Run Step t es u) : Inv u :=
  hr.inv h fun _ _ _ hi hs => (hi.step hs).inv

theorem Inv.count_connect (h : Inv t) (hr : Run Step t es u) (hs : u.stopped_ = false) :
    t.stopped_ = false ∧ u.attempts = t.attempts + es.count .connect := by
  induction hr with
  | nil => exact ⟨hs, rfl⟩
  | snoc hr st ih =>
    have hst := (h.run hr).step st
    have hb := hst.stopped.symm.trans hs
    rw [Bool.or_eq_false_iff] at hb
    obtain ⟨h₁, h₂⟩ := ih hb.1
    refine ⟨h₁, ?_⟩
    rw [hst.attempts hs, h₂, List.count_append, List.count_singleton, Nat.add_assoc]
    simp

/-- What has happened to a connection says how many attempts are under way: as many as `connect` has been
called, until it is stopped. With one call, nothing else is under way while the connection is up. -/
theorem attempts_of_run {t₀ : AutorecoveringConnection} (h0 : Started t₀) (h : Run Step t₀ es t)
    (hs : t.stopped_ = false) :
    t.attempts = es.count .connect ∧ (t.connected = true → t.delegate_.reading = true) ∧
      (es.count .connect = 1 → t.connected = true →
        t.timers = 0 ∧ t.delegate_.resolving = 0 ∧ t.delegate_.connecting = 0) := by
  obtain ⟨hi, h₀⟩ := h0.inv
  have hr := (hi.run h).reads.reads
  have ha : t.attempts = es.count .connect := by rw [(hi.count_connect h hs).2, h₀, Nat.zero_add]
  refine ⟨ha, hr, fun h₁ hc => ?_⟩
  have ht : t.delegate_.reading = true := hr hc
  simp only [attempts, TcpConnection.attempts, ht, h₁, Bool.toNat_true] at ha
  omega

/-- A connection that has been lost, and whose timer has called `connect`. -/
theorem attempts_of_run_lost : ∃ t₀ t : AutorecoveringConnection, Started t₀ ∧
    Run Step t₀ [.connect, .tcp (.resolved true), .tcp (.connected 0), .tcp .error, .timer] t ∧
    t.connected = false ∧ t.attempts = 1 := by
  obtain ⟨t₀, t, h0, h, hst, hc⟩ := exists_run (P := fun t => t.stopped_ = false ∧ t.connected = false)
    ⟨64, 0, 2, 2, 0, 0, true, false, 0, 0⟩
    [.connect, .tcp (.resolved true), .tcp (.connected 0), .tcp .error, .timer]
    (by decide +kernel)
  exact ⟨t₀, t, h0, h, hc, (attempts_of_run h0 h hst).1⟩

/-! ## Recovering -/

/-- What can happen while the peer can be reached and nobody calls anything: a connection that has been
closed brings an error, and no other does. -/
def Healthy (t : AutorecoveringConnection) : AutorecoveringEvent → Prop
  | .timer => True
  | .tcp (.resolved ok) => ok = true
  | .tcp (.connected closes) => closes = 0
  | .tcp (.read _ as) => t.connected = true ∧ .close ∉ as
  | .tcp .error => t.connected = false
  | _ => False

/-- How many completions it takes until the connection is up. -/
def distance (t : AutorecoveringConnection) : Nat :=
  if t.connected then 0
  else if t.delegate_.reading then 4
  else if 0 < t.delegate_.connecting then 1
  else if 0 < t.delegate_.resolving then 2
  else 3

/-- An event of the delegate that uses no buffer that is not there is dealt with. -/
theorem Inv.exists_completed {e : TcpEvent} (h : Inv t) (he : AutorecoveringEvent.Enabled t (.tcp e))
    (hm : e.Meets t.delegate_) : ∃ u, Step t (.tcp e) u := by
  obtain ⟨d, hd, -⟩ := h.reads.inv.handle he.2.2 hm
  exact ⟨_, he, Outcome.ok?_eq_some.mpr (completed_ok hd)⟩

theorem Inv.exists_timer (h : Inv t) (ht : 0 < t.timers) : ∃ u, Step t .timer u := by
  have h' : Inv { t with timers := t.timers - 1 } := ⟨h.reads, h.stopped, fun _ => h.retry ht⟩
  obtain ⟨u, e, -⟩ := h'.connect fun hr => by simp [h.retry ht] at hr
  exact ⟨u, ht, Outcome.ok?_eq_some.mpr e⟩

/-- What a connection waits for that is not up. -/
def awaited (t : AutorecoveringConnection) : AutorecoveringEvent :=
  if t.delegate_.reading then .tcp .error
  else if 0 < t.delegate_.connecting then .tcp (.connected 0)
  else if 0 < t.delegate_.resolving then .tcp (.resolved true)
  else .timer

theorem Inv.exists_awaited (h : Inv t) (ha : 0 < t.attempts) (hc : t.connected = false) :
    ∃ u, Step t t.awaited u := by
  unfold awaited
  by_cases hr : t.delegate_.reading = true
  · simp only [hr]
    exact h.exists_completed ⟨by decide, by decide, hr⟩ trivial
  rw [if_neg hr]
  split
  · refine h.exists_completed ⟨by decide, by decide, by assumption, hc, by simpa using hr⟩ fun _ => rfl
  split
  · exact h.exists_completed ⟨by decide, by decide, by assumption⟩ trivial
  · refine h.exists_timer ?_
    simp only [attempts, TcpConnection.attempts] at ha
    simp_all

theorem Step.delegate {e : TcpEvent} (hs : Step t (.tcp e) u) : e.handle t.delegate_ = .ok () u.delegate_ := by
  obtain ⟨d, hd, rfl⟩ := completed_eq_ok (Outcome.ok?_eq_some.mp hs.handled)
  split <;> exact hd

theorem Inv.of_error (h : Inv t) (hs : Step t (.tcp .error) u) :
    u.connected = false ∧ u.delegate_.reading = false := by
  obtain ⟨w, hw, e⟩ := TcpConnection.Inv.of_close (t := { t.delegate_ with reading := false })
    ⟨h.reads.inv.ok, h.reads.inv.held⟩ hs.delegate
  rw [connected, e]
  exact ⟨hw, rfl⟩

theorem Inv.of_connected (h : Inv t) (hs : Step t (.tcp (.connected 0)) u) : u.connected = true := by
  obtain ⟨w, e, hp⟩ := TcpConnection.handleConnected_posted h.reads.inv.ok fun _ => (rfl : 0 = 0)
  have e' := TcpConnection.posts_ok (t := { t.delegate_ with connecting := t.delegate_.connecting - 1 }) e
  rw [connected, (Outcome.ok.inj (hs.delegate.symm.trans e')).2]
  exact hp.connected

theorem Inv.of_read (h : Inv t) {n : Nat} {as : List Action} (has : .close ∉ as) (hs : Step t (.tcp (.read n as)) u) :
    u.connected = t.connected := by
  have he := hs.enabled.2.2
  obtain ⟨hm, -⟩ := h.reads.inv.of_handle he hs.delegate
  obtain ⟨b, hb⟩ := Option.ne_none_iff_exists'.mp hm.1
  obtain ⟨w, e, hp⟩ := TcpConnection.handleRead_posted h.reads.inv.ok h.reads.inv.held hb (he.2.2 b hb) hm.2
  have e' := TcpConnection.posts_ok (t := { t.delegate_ with reading := false }) e
  rw [connected, (Outcome.ok.inj (hs.delegate.symm.trans e')).2]
  exact hp.connected.trans (by simp [has, connected])

theorem of_resolved (hs : Step t (.tcp (.resolved true)) u) :
    u.connected = t.connected ∧ u.delegate_.reading = t.delegate_.reading ∧ 0 < u.delegate_.connecting := by
  have e := (Outcome.ok.inj hs.delegate).2
  rw [connected, ← e]
  exact ⟨rfl, rfl, Nat.succ_pos _⟩

theorem Inv.of_timer (h : Inv t) (hst : t.stopped_ = false) (hs : Step t .timer u) :
    u.connected = false ∧ u.delegate_.reading = t.delegate_.reading ∧ 0 < u.delegate_.resolving := by
  have ht : 0 < t.timers := hs.enabled
  have h' : Inv { t with timers := t.timers - 1 } := ⟨h.reads, h.stopped, fun _ => h.retry ht⟩
  have hc := h'.of_connect (Outcome.ok?_eq_some.mp hs.handled)
  exact ⟨hc.closed, hc.reading, by simp [hc.resolving, hst]⟩

/-- Each completion a connection waits for brings it closer to being up. -/
theorem Inv.awaited_step (h : Inv t) (hst : t.stopped_ = false) (hc : t.connected = false) (hs : Step t t.awaited u) :
    u.distance < t.distance := by
  unfold awaited at hs
  by_cases hr : t.delegate_.reading = true
  · obtain ⟨h₁, h₂⟩ := h.of_error (by simpa [hr] using hs)
    simp only [distance, hc, hr, h₁, h₂]
    grind
  by_cases hcn : 0 < t.delegate_.connecting
  · have h₁ := h.of_connected (by simpa [hr, hcn] using hs)
    simp [distance, hc, hr, hcn, h₁]
  by_cases hrs : 0 < t.delegate_.resolving
  · obtain ⟨h₁, h₂, h₃⟩ := of_resolved (by simpa [hr, hcn, hrs] using hs)
    simp [distance, hc, hr, hcn, hrs, h₁, h₂, h₃]
  · obtain ⟨h₁, h₂, h₃⟩ := h.of_timer hst (by simpa [hr, hcn, hrs] using hs)
    simp [distance, hc, hr, hcn, hrs, h₁, h₂, h₃]
    grind

/-- With one attempt, nothing happens but what the connection waits for. -/
theorem Healthy.eq_awaited (hh : Healthy t e) (ha : t.attempts = 1) (hc : t.connected = false) (he : e.Enabled t) :
    e = t.awaited := by
  simp only [attempts, TcpConnection.attempts] at ha
  unfold awaited
  cases e with
  | connect | refused | stop => exact absurd hh id
  | timer =>
    have ht : 0 < t.timers := he
    cases hr : t.delegate_.reading with
    | false => rw [if_neg (by simp), if_neg (by omega), if_neg (by omega)]
    | true => simp only [hr, Bool.toNat_true] at ha; omega
  | tcp e =>
    obtain ⟨-, -, he⟩ := he
    cases e with
    | connect | start | close | stop | connectFailed => exact absurd hh id
    | resolved ok =>
      have hpos : 0 < t.delegate_.resolving := he
      obtain rfl : ok = true := hh
      cases hr : t.delegate_.reading with
      | false => rw [if_neg (by simp), if_neg (by omega), if_pos (by omega)]
      | true => simp only [hr, Bool.toNat_true] at ha; omega
    | connected closes =>
      obtain ⟨hpos, -, hr⟩ := he
      obtain rfl : closes = 0 := hh
      simp [hr, hpos]
    | read n as =>
      obtain ⟨hc', -⟩ := hh
      simp [hc] at hc'
    | error =>
      have hr : t.delegate_.reading = true := he
      simp [hr]

/-- With one attempt, a connection that is up stays so. -/
theorem Healthy.stays_connected (hh : Healthy t e) (h : Inv t) (ha : t.attempts = 1) (hc : t.connected = true)
    (hs : Step t e u) : u.connected = true := by
  have hr := h.reads.reads hc
  simp only [attempts, TcpConnection.attempts, hr, Bool.toNat_true] at ha
  have he := hs.enabled
  cases e with
  | connect | refused | stop => exact absurd hh id
  | timer =>
    have ht : 0 < t.timers := he
    omega
  | tcp e =>
    obtain ⟨-, -, he⟩ := he
    cases e with
    | connect | start | close | stop | connectFailed => exact absurd hh id
    | resolved ok =>
      have hpos : 0 < t.delegate_.resolving := he
      omega
    | connected closes =>
      have hpos : 0 < t.delegate_.connecting := he.1
      omega
    | read n as => exact (h.of_read hh.2 hs).trans hc
    | error =>
      have hc' : t.connected = false := hh
      simp [hc] at hc'

theorem distance_of_connected (hc : t.connected = true) : t.distance = 0 := by simp [distance, hc]

theorem distance_of_not (hc : t.connected = false) : 0 < t.distance ∧ t.distance ≤ 4 := by
  simp only [distance, hc]
  grind

/-- With one attempt, every step brings the connection closer to being up. -/
theorem Healthy.distance_le (hh : Healthy t e) (h : Inv t) (hst : t.stopped_ = false) (ha : t.attempts = 1)
    (hs : Step t e u) : u.distance ≤ t.distance - 1 := by
  cases hc : t.connected with
  | false =>
    obtain rfl := hh.eq_awaited ha hc hs.enabled
    have := h.awaited_step hst hc hs
    omega
  | true =>
    rw [distance_of_connected (hh.stays_connected h ha hc hs)]
    exact Nat.zero_le _

theorem healthy_awaited (t : AutorecoveringConnection) (hc : t.connected = false) : Healthy t t.awaited := by
  unfold awaited
  split
  · exact hc
  split
  · exact rfl
  split
  · exact rfl
  · trivial

/-- A step while the peer can be reached. -/
def HealthyStep (t : AutorecoveringConnection) (e : AutorecoveringEvent) (u : AutorecoveringConnection) : Prop :=
  Step t e u ∧ Healthy t e

theorem Healthy.ne (hh : Healthy t e) : e ≠ .connect ∧ e ≠ .stop := by
  constructor <;> rintro rfl <;> exact hh

/-- What holds of a connection that has been called once is kept while it is healthy. -/
theorem HealthyStep.keeps (hs : HealthyStep t e u) (h : Inv t) (hst : t.stopped_ = false) :
    Inv u ∧ u.stopped_ = false ∧ u.attempts = t.attempts := by
  obtain ⟨hs, hh⟩ := hs
  have hu := h.step hs
  have hst' : u.stopped_ = false := by simp [hu.stopped, hst, hh.ne.2]
  refine ⟨hu.inv, hst', ?_⟩
  rw [hu.attempts hst', if_neg hh.ne.1, Nat.add_zero]

theorem Inv.healthy_run (h : Inv t) (hst : t.stopped_ = false) (ha : t.attempts = 1) (hr : Run HealthyStep t es u) :
    (Inv u ∧ u.stopped_ = false ∧ u.attempts = 1) ∧ u.distance ≤ t.distance - es.length := by
  induction hr with
  | nil => exact ⟨⟨h, hst, ha⟩, Nat.le_refl _⟩
  | snoc _ hs ih =>
    obtain ⟨⟨hi, hst', ha'⟩, hd⟩ := ih
    have hk := hs.keeps hi hst'
    have hd' := hs.2.distance_le hi hst' ha' hs.1
    refine ⟨⟨hk.1, hk.2.1, hk.2.2.trans ha'⟩, ?_⟩
    rw [List.length_append, List.length_singleton]
    omega

/-- Following what a connection waits for, it is up in the end. -/
theorem Inv.exists_healthy_run (h : Inv t) (hst : t.stopped_ = false) (ha : 0 < t.attempts) :
    ∃ es u, Run HealthyStep t es u ∧ es.length ≤ t.distance ∧ u.connected = true := by
  induction hn : t.distance using Nat.strong_induction_on generalizing t with
  | _ n ih =>
    cases hc : t.connected with
    | true => exact ⟨[], t, .nil, Nat.zero_le _, hc⟩
    | false =>
      obtain ⟨t', hs⟩ := h.exists_awaited ha hc
      have hhs : HealthyStep t t.awaited t' := ⟨hs, healthy_awaited t hc⟩
      have hlt := h.awaited_step hst hc hs
      obtain ⟨hi', hst', ha'⟩ := hhs.keeps h hst
      obtain ⟨es, u, hr, hlen, hu⟩ := ih _ (hn ▸ hlt) hi' hst' (by omega) rfl
      exact ⟨_ :: es, u, .cons hhs hr, by rw [List.length_cons]; omega, hu⟩

/-- Until it is stopped, a connection that `connect` has been called on can come up again wherever it is,
with nobody calling anything; if `connect` has been called once, it does. -/
theorem recovers {t₀ : AutorecoveringConnection} (h0 : Started t₀) (h : Run Step t₀ es t)
    (hst : t.stopped_ = false) (hc : .connect ∈ es) :
    (∃ es' u, Run HealthyStep t es' u ∧ es'.length ≤ 4 ∧ u.connected = true) ∧
      (es.count .connect = 1 → ∀ es' u, Run HealthyStep t es' u → 4 ≤ es'.length → u.connected = true) := by
  obtain ⟨hi, h₀⟩ := h0.inv
  have hit := hi.run h
  have ha : t.attempts = es.count .connect := by rw [(hi.count_connect h hst).2, h₀, Nat.zero_add]
  have hd : t.distance ≤ 4 := by
    cases hcn : t.connected with
    | true => rw [distance_of_connected hcn]; exact Nat.zero_le _
    | false => exact (distance_of_not hcn).2
  constructor
  · obtain ⟨es', u, hr, hlen, hu⟩ := hit.exists_healthy_run hst (ha ▸ List.count_pos_iff.mpr hc)
    exact ⟨es', u, hr, Nat.le_trans hlen hd, hu⟩
  · intro h₁ es' u hr hlen
    have hu := (hit.healthy_run hst (ha.trans h₁) hr).2
    by_contra hcu
    have := (distance_of_not (by simpa using hcu)).1
    omega

/-- The same connection comes up again. -/
theorem recovers_lost : ∃ t₀ t, Started t₀ ∧
    Run Step t₀ [.connect, .tcp (.resolved true), .tcp (.connected 0), .tcp .error, .timer] t ∧
    t.connected = false ∧ ∃ es u, Run HealthyStep t es u ∧ u.connected = true := by
  obtain ⟨t₀, t, h0, h, hst, hc⟩ := exists_run (P := fun t => t.stopped_ = false ∧ t.connected = false)
    ⟨64, 0, 2, 2, 0, 0, true, false, 0, 0⟩
    [.connect, .tcp (.resolved true), .tcp (.connected 0), .tcp .error, .timer]
    (by decide +kernel)
  obtain ⟨⟨es, u, hr, -, hu⟩, -⟩ := recovers h0 h hst (by decide)
  exact ⟨t₀, t, h0, h, hc, es, u, hr, hu⟩

/-! ## Several calls -/

/-- What an attempt goes through that fails after the resolver. -/
def Fails (e : AutorecoveringEvent) : Prop := e = .timer ∨ e = .tcp (.resolved true) ∨ e = .tcp .connectFailed

theorem Inv.timer_closes (h : Inv t) (hst : t.stopped_ = false) (ht : 0 < t.timers) :
    ∃ es u, Run Step t es u ∧ u.connected = false ∧ ∀ e ∈ es, Fails e := by
  obtain ⟨u, hs⟩ := h.exists_timer ht
  exact ⟨[.timer], u, .one hs, (h.of_timer hst hs).1, by simp [Fails]⟩

theorem Inv.connecting_closes (h : Inv t) (hst : t.stopped_ = false) (hc : 0 < t.delegate_.connecting) :
    ∃ es u, Run Step t es u ∧ u.connected = false ∧ ∀ e ∈ es, Fails e := by
  obtain ⟨t', hs⟩ := h.exists_completed (e := .connectFailed) ⟨by decide, by decide, hc⟩ trivial
  have ht' : t'.stopped_ = false ∧ 0 < t'.timers := by
    obtain ⟨d, -, rfl⟩ := completed_eq_ok (Outcome.ok?_eq_some.mp hs.handled)
    simp [hst, TcpEvent.fires]
  obtain ⟨es, u, hr, hu, hes⟩ := (h.step hs).inv.timer_closes ht'.1 ht'.2
  exact ⟨_ :: es, u, .cons hs hr, hu, by simpa [Fails] using hes⟩

theorem Inv.resolving_closes (h : Inv t) (hst : t.stopped_ = false) (hc : 0 < t.delegate_.resolving) :
    ∃ es u, Run Step t es u ∧ u.connected = false ∧ ∀ e ∈ es, Fails e := by
  obtain ⟨t', hs⟩ := h.exists_completed (e := .resolved true) ⟨by decide, by decide, hc⟩ trivial
  have hst' : t'.stopped_ = false := by simp [(h.step hs).stopped, hst]
  obtain ⟨es, u, hr, hu, hes⟩ := (h.step hs).inv.connecting_closes hst' (of_resolved hs).2.2
  exact ⟨_ :: es, u, .cons hs hr, hu, by simpa [Fails] using hes⟩

/-- When `connect` has been called twice, there is another attempt beside a connection that is up, and it
closes the connection: nobody calls `close`, and nothing is wrong with the connection. -/
theorem attempts_compete {t₀ : AutorecoveringConnection} (h0 : Started t₀) (h : Run Step t₀ es t)
    (hst : t.stopped_ = false) (hc : 2 ≤ es.count .connect) (hcn : t.connected = true) :
    ∃ es' u, Run Step t es' u ∧ u.connected = false ∧ ∀ e ∈ es', Fails e := by
  obtain ⟨hi, h₀⟩ := h0.inv
  have hit := hi.run h
  have ha : t.attempts = es.count .connect := by rw [(hi.count_connect h hst).2, h₀, Nat.zero_add]
  simp only [attempts, TcpConnection.attempts, hit.reads.reads hcn, Bool.toNat_true] at ha
  by_cases ht : 0 < t.timers
  · exact hit.timer_closes hst ht
  by_cases hcn' : 0 < t.delegate_.connecting
  · exact hit.connecting_closes hst hcn'
  · exact hit.resolving_closes hst (by omega)

/-- The resolver fails, and `connect` is called again before the timer expires. -/
theorem attempts_compete_twice : ∃ t₀ t, Started t₀ ∧
    Run Step t₀ [.connect, .tcp (.resolved false), .connect, .tcp (.resolved true), .tcp (.connected 0)] t ∧
    t.connected = true ∧ ∃ es u, Run Step t es u ∧ u.connected = false := by
  obtain ⟨t₀, t, h0, h, hst, hc⟩ := exists_run (P := fun t => t.stopped_ = false ∧ t.connected = true)
    ⟨64, 0, 2, 2, 0, 0, true, false, 0, 0⟩
    [.connect, .tcp (.resolved false), .connect, .tcp (.resolved true), .tcp (.connected 0)] (by decide +kernel)
  obtain ⟨es, u, hr, hu, -⟩ := attempts_compete h0 h hst (by decide) hc
  exact ⟨t₀, t, h0, h, hc, es, u, hr, hu⟩

/-! ## Stopping -/

theorem attempts_le_weight (t : AutorecoveringConnection) : t.attempts ≤ t.weight ∧ t.weight ≤ 3 * t.attempts := by
  simp only [attempts, TcpConnection.attempts, weight, TcpConnection.weight]
  omega

theorem Inv.stopped_run (h : Inv t) (hst : t.stopped_ = true) (hr : Run Step t es u) :
    u.stopped_ = true ∧ es.countP (·.completes) + u.weight ≤ t.weight := by
  induction hr with
  | nil => simp [hst]
  | snoc hr hs ih =>
    have hu := (h.run hr).step hs
    have hw := hu.weight ih.1
    refine ⟨by simp [hu.stopped, ih.1], ?_⟩
    rw [List.countP_append, List.countP_singleton]
    grind

theorem Inv.exists_completes (h : Inv t) (ha : 0 < t.attempts) : ∃ e u, e.completes = true ∧ Step t e u := by
  have hm : ∀ {e : TcpEvent}, AutorecoveringEvent.Enabled t (.tcp e) → e.Meets t.delegate_ → e.completes = true →
      ∃ e u, e.completes = true ∧ Step t e u := fun he hm hc =>
    (h.exists_completed he hm).elim fun u hs => ⟨.tcp _, u, hc, hs⟩
  simp only [attempts, TcpConnection.attempts] at ha
  by_cases hr : t.delegate_.reading = true
  · exact hm (e := .error) ⟨by decide, by decide, hr⟩ trivial rfl
  by_cases hc : 0 < t.delegate_.connecting
  · exact hm (e := .connectFailed) ⟨by decide, by decide, hc⟩ trivial rfl
  by_cases hrs : 0 < t.delegate_.resolving
  · exact hm (e := .resolved false) ⟨by decide, by decide, hrs⟩ trivial rfl
  · simp only [hr, Bool.toNat_false] at ha
    obtain ⟨u, hs⟩ := h.exists_timer (by omega)
    exact ⟨.timer, u, rfl, hs⟩

theorem Step.attempts_pos (hs : Step t e u) (hc : e.completes = true) : 0 < t.attempts := by
  have he := hs.enabled
  simp only [attempts, TcpConnection.attempts]
  cases e with
  | connect | refused | stop => cases hc
  | timer =>
    have ht : 0 < t.timers := he
    omega
  | tcp e =>
    obtain ⟨-, -, he⟩ := he
    cases e with
    | connect | start | read | close | stop => cases hc
    | resolved ok =>
      have hpos : 0 < t.delegate_.resolving := he
      omega
    | connectFailed =>
      have hpos : 0 < t.delegate_.connecting := he
      omega
    | connected closes =>
      have hpos : 0 < t.delegate_.connecting := he.1
      omega
    | error =>
      have hr : t.delegate_.reading = true := he
      rw [hr]
      exact Nat.succ_pos _

/-- After `stop()` the attempts end: each has at most three more completions, and when there are no more of
them nothing is under way, and the connection is not up. -/
theorem stop_ends {t₀ t₁ : AutorecoveringConnection} {es' : List AutorecoveringEvent} (h0 : Started t₀)
    (h : Run Step t₀ es t) (hst : t.stopped_ = false) (hs : Step t .stop t₁) (h' : Run Step t₁ es' u) :
    es'.countP (·.completes) + u.attempts ≤ 3 * es.count .connect ∧
      (0 < u.attempts ↔ ∃ e v, e.completes = true ∧ Step u e v) ∧ (u.attempts = 0 → u.connected = false) := by
  obtain ⟨hi, h₀⟩ := h0.inv
  have hit := hi.run h
  have ha : t.attempts = es.count .connect := by rw [(hi.count_connect h hst).2, h₀, Nat.zero_add]
  have h₁ := hit.step hs
  have hst₁ : t₁.stopped_ = true := by simp [h₁.stopped]
  have hiu := h₁.inv.run h'
  have hw : t₁.weight = t.weight := by
    obtain rfl : { t with stopped_ := true, delegate_ := { t.delegate_ with stopped_ := true } } = t₁ :=
      Option.some.inj hs.handled
    rfl
  have hb := (h₁.inv.stopped_run hst₁ h').2
  have hut := (attempts_le_weight u).1
  have htt := (attempts_le_weight t).2
  refine ⟨by omega, ⟨hiu.exists_completes, ?_⟩, fun hu => ?_⟩
  · rintro ⟨e, v, hc, hsv⟩
    exact hsv.attempts_pos hc
  by_contra hcn
  have hr := hiu.reads.reads (by simpa [connected] using hcn)
  simp [attempts, TcpConnection.attempts, hr] at hu

/-- A connection that is stopped while it connects comes up after that, and has one more completion. -/
theorem stop_ends_connecting : ∃ t₀ t t₁ u : AutorecoveringConnection, Started t₀ ∧
    Run Step t₀ [.connect, .tcp (.resolved true)] t ∧ Step t .stop t₁ ∧ Run Step t₁ [.tcp (.connected 0)] u ∧
    u.stopped_ = true ∧ u.connected = true ∧ 1 + u.attempts ≤ 3 := by
  obtain ⟨t₀, t, h0, h, hst, hu⟩ := exists_run (P := fun t => t.stopped_ = false ∧
      ((next t .stop).any fun t₁ => (next t₁ (.tcp (.connected 0))).any fun u => u.stopped_ && u.connected) = true)
    ⟨64, 0, 2, 2, 0, 0, true, false, 0, 0⟩ [.connect, .tcp (.resolved true)] (by decide +kernel)
  obtain ⟨t₁, h₁, hu⟩ := (Option.any_eq_true _ _).mp hu
  obtain ⟨u, h₂, hu⟩ := (Option.any_eq_true _ _).mp hu
  rw [Bool.and_eq_true] at hu
  exact ⟨t₀, t, t₁, u, h0, h, step_of_next h₁, .one (step_of_next h₂), hu.1, hu.2,
    (stop_ends h0 h hst (step_of_next h₁) (.one (step_of_next h₂))).1⟩

end AutorecoveringConnection

end Nio.Net
