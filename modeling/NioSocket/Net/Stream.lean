import NioSocket.Net.Completion

/-!
# The stream of a connection

Runs of a TCP connection with a decoder: it connects, bytes arrive in reads cut anyhow,
and handlers release in between the frames they have kept. Every state is a `Session`
of the bytes that have come so far, and what the decoder did is a trace of them
(`Session.run`), as long as it counts no more bytes of a too long frame than an `int`
holds.
-/

namespace Nio.Net

open LengthFieldBasedFrameDecoder (frames exceptions)

/-- The bytes an input brings. -/
def Input.bytes : Input → List UInt8
  | .read bytes => bytes
  | _ => []

/-- What happens to a TCP connection that stays open. -/
def Input.OfStream : Input → Prop
  | .connect | .read _ | .release _ => True
  | .fragment .. | .error => False

instance (e : Input) : Decidable e.OfStream :=
  match e with
  | .connect | .read _ | .release _ => .isTrue trivial
  | .fragment .. | .error => .isFalse not_false

/-- The bytes that inputs bring. -/
def stream (es : List Input) : List UInt8 := es.flatMap Input.bytes

@[simp] theorem stream_nil : stream [] = [] := rfl
@[simp] theorem stream_append (es es' : List Input) : stream (es ++ es') = stream es ++ stream es' :=
  List.flatMap_append
@[simp] theorem stream_singleton (e : Input) : stream [e] = e.bytes := List.flatMap_singleton ..

/-- A step before which no more bytes are to be discarded than an `int` holds. -/
structure TcpStep (q : Pipeline) (w : Connection) (e : Input) (w' : Connection) : Prop where
  step : Step q w e w'
  ofStream : e.OfStream
  discard_le : w.decoder.frameDecoder.bytesToDiscard_ ≤ 2147483647

namespace Connection

variable {d : LengthFieldBasedFrameDecoder} {S : List UInt8} {C p C' p' : Nat} {w w' w₀ w₁ : Connection} {q : Pipeline}
  {e : Input} {es es' : List Input} {m : Message} {t : List Decoded} {lost : List (List UInt8)}

/-! ## Steps -/

theorem Session.bytesToDiscard (h : Session d S C p w) : w.decoder.frameDecoder.bytesToDiscard_ = p - C := by
  obtain ⟨T, hT⟩ := h.core.decoder
  rw [hT]

theorem started_aside (hd : d.Becomes d) (h : Started d w) : w.Empty ∧ Aside (blank d) w := by
  obtain ⟨w', e, hempty, ha⟩ := adjustReadBuffer_eq (blank_own hd) fun b hb => by cases hb
  obtain rfl : w' = w := by cases e.symm.trans h; rfl
  exact ⟨hempty, ha⟩

theorem Session.started (hd : d.Becomes d) (h0 : d.discarding 0 0 = d) (h : Started d w) :
    Session d [] 0 0 w ∧ w.fired = [] ∧ w.decoder.trace = [] := by
  obtain ⟨hempty, ha⟩ := started_aside hd h
  have hcore : Core d [] 0 0 (blank d) :=
    ⟨⟨⟨0, h0.symm⟩, rfl, Nat.le_refl _, Nat.le_refl _⟩, .inl rfl, fun _ => rfl, fun h => absurd rfl h, rfl,
      fun m hm => by cases hm⟩
  exact ⟨⟨hcore.congr ha.decoder ha.held ha.heap, started_own hd h, hempty⟩, ha.fired, by rw [ha.decoder]; rfl⟩

/-- Nothing is decoded. -/
theorem delivers_nothing (hd : w'.decoder = w.decoder) (hf : w'.fired = w.fired) (he : w'.caught = w.caught)
    (hc : w.connected_ = true → w'.connected_ = true) : Delivers d S C p C p [] [] w w' :=
  ⟨Nat.le_refl _, by rw [hd, List.append_nil], .nil p, by rw [hf]; rfl, by simp [exceptions],
    by rw [he]; exact (List.append_nil _).symm, hc⟩

/-- A connection that does not decode anything at present: the read buffer, if there is one, is empty. -/
structure Between (d : LengthFieldBasedFrameDecoder) (S : List UInt8) (C p : Nat) (w : Connection) : Prop where
  core : Core d S C p w
  own : ∃ n, Own d n [] w
  fit : ∀ b, w.cumulation_ = some b → w.EmptyAt b

theorem Session.between (h : Session d S C p w) : Between d S C p w := by
  obtain ⟨b, hb, hb'⟩ := h.empty
  refine ⟨h.core, h.own, fun c hc => ?_⟩
  obtain rfl : b = c := Option.some.inj (hb.symm.trans hc)
  exact hb'

theorem Between.session {b : Nat} (h : Between d S C p w) (hb : w.cumulation_ = some b) : Session d S C p w :=
  ⟨h.core, h.own, b, hb, h.fit b hb⟩

theorem Between.connect (h : Between d S C p w) (hst : Step q w .connect w') (hown : ∃ n, Own d n [] w') :
    Session d S C p w' ∧ Delivers d S C p C p [] [] w w' ∧ Keeps w w' := by
  obtain ⟨-, fuel, e⟩ := hst
  obtain ⟨n, hn⟩ := h.own
  have hc : Own d n [] { w with connected_ := true } := hn.move rfl rfl rfl rfl fun _ => rfl
  obtain ⟨w'', e', hempty, ha⟩ := adjustReadBuffer_eq hc fun c hc => { h.fit c hc with }
  obtain rfl : w'' = w' := by cases e'.symm.trans (show adjustReadBuffer _ = _ from e); rfl
  have hcore : Core d S C p { w with connected_ := true } := h.core.congr rfl rfl fun _ _ => ⟨_, rfl⟩
  refine ⟨⟨hcore.congr ha.decoder ha.held ha.heap, hown, hempty⟩,
    delivers_nothing ha.decoder ha.fired ha.caught fun _ => ha.connected, ?_⟩
  exact ⟨ha.keeps.held, ha.keeps.bytes⟩

/-- A handler lets go of a message: no other bytes change. -/
theorem Between.release (h : Between d S C p w) (hst : Step q w (.release m) w') (hown : ∃ n, Own d n [] w') :
    Between d S C p w' ∧ Delivers d S C p C p [] [] w w' ∧ w'.cumulation_ = w.cumulation_ ∧
      w'.held = w.held.erase m ∧ ∀ m', w'.readableOf m' = w.readableOf m' := by
  obtain ⟨hm, fuel, e⟩ := hst
  obtain ⟨n, hn⟩ := h.own
  obtain rfl : ({ w with held := w.held.erase m }).setBuf m.buf ((w.heap m.buf).release 1) = w' := by cases e; rfl
  have hcnt := setBuf_release_heap { w with held := w.held.erase m } m.buf
  have hcore : Core d S C p { w with held := w.held.erase m } :=
    ⟨⟨h.core.decoder, h.core.consumed, h.core.le, h.core.le_length⟩, h.core.done, h.core.none_of_done,
      h.core.reading, h.core.single, fun m' hm' => h.core.safe m' (List.mem_of_mem_erase hm')⟩
  refine ⟨⟨hcore.congr rfl rfl fun a _ => hcnt a, hown, fun b hb => ?_⟩, delivers_nothing rfl rfl rfl fun hc => hc, rfl,
    rfl, fun m' => ?_⟩
  · have hb' := h.fit b hb
    have hne : b ≠ m.buf := fun hbm =>
      hn.not_uses hb (Int.le_of_eq hb'.refCnt) (List.mem_append_right _ (hbm ▸ List.mem_map_of_mem hm))
    have e := setBuf_heap_of_ne { w with held := w.held.erase m } ((w.heap m.buf).release 1) hne
    exact ⟨e ▸ hb'.sound, e ▸ hb'.writer, e ▸ hb'.refCnt, e ▸ hb'.capacity⟩
  · obtain ⟨k, hk⟩ := hcnt m'.buf
    cases m' with
    | whole b => rw [readableOf, readableOf, show Connection.heap _ b = _ from hk]; rfl
    | slice b s => rw [readableOf, readableOf, show Connection.heap _ b = _ from hk]; rfl

theorem Session.connect (h : Session d S C p w) (hst : Step q w .connect w') (hown : ∃ n, Own d n [] w') :
    Session d S C p w' ∧ Delivers d S C p C p [] [] w w' ∧ Keeps w w' := h.between.connect hst hown

theorem Session.release (h : Session d S C p w) (hst : Step q w (.release m) w') (hown : ∃ n, Own d n [] w') :
    Session d S C p w' ∧ Delivers d S C p C p [] [] w w' ∧ w'.held = w.held.erase m ∧
      ∀ m', w'.readableOf m' = w.readableOf m' := by
  obtain ⟨b, hb, -⟩ := h.empty
  obtain ⟨hs, hdel, hcum, hheld, hbytes⟩ := h.between.release hst hown
  exact ⟨hs.session (hcum.trans hb), hdel, hheld, hbytes⟩

/-- What a handler keeps stays what it is until the handler releases it. -/
def Stable (e : Input) (w w' : Connection) : Prop :=
  ∀ m ∈ w.held, e ≠ .release m → m ∈ w'.held ∧ w'.readableOf m = w.readableOf m

theorem Keeps.stable (h : Keeps w w') : Stable e w w' := fun m hm _ => ⟨h.held.subset hm, h.bytes m hm⟩

theorem Session.step (hd : d.Supported) (hq : q.Transparent) (h : Session d S C p w) (hst : TcpStep q w e w') :
    ∃ C' p' t lost, Session d (S ++ e.bytes) C' p' w' ∧ Delivers d (S ++ e.bytes) C p C' p' t lost w w' ∧
      Stable e w w' := by
  obtain ⟨hst, hof, hp⟩ := hst
  rw [h.bytesToDiscard] at hp
  have hown : e.Suits q → ∃ n, Own d n [] w' := fun hs => step_own hq.forwards hs hst h.own
  cases e with
  | connect =>
    obtain ⟨hs, hdel, hk⟩ := h.connect hst (hown trivial)
    rw [show S ++ (Input.connect).bytes = S from List.append_nil S]
    exact ⟨C, p, [], [], hs, hdel, hk.stable⟩
  | read bytes =>
    obtain ⟨-, C', p', t, lost, hs, hdel, hk⟩ := h.step_read hd hq (by omega) hst
    exact ⟨C', p', t, lost, hs, hdel, hk.stable⟩
  | release m =>
    obtain ⟨hs, hdel, hheld, hbytes⟩ := h.release hst (hown trivial)
    rw [show S ++ (Input.release m).bytes = S from List.append_nil S]
    refine ⟨C, p, [], [], hs, hdel, fun m' hm' hne => ⟨?_, hbytes m'⟩⟩
    rw [hheld]
    exact (List.mem_erase_of_ne fun e => hne (by rw [e])).mpr hm'
  | fragment | error => exact hof.elim

/-! ## Runs -/

/-- Whether a step is one of a `TcpStep`. -/
def tcpCheck (w : Connection) (e : Input) : Bool :=
  decide (e.OfStream ∧ w.decoder.frameDecoder.bytesToDiscard_ ≤ 2147483647)

theorem tcpStep_of_check (h : tcpCheck w e = true ∧ Step q w e w') : TcpStep q w e w' := by
  obtain ⟨hof, hle⟩ := of_decide_eq_true h.1
  exact ⟨h.2, hof, hle⟩

theorem exists_tcp_run (es : List Input) (fuel : Nat) {P : Connection → Prop} [DecidablePred P]
    (h : ((start d).bind (run tcpCheck q fuel es)).any (P ·) = true) :
    ∃ w₀ w, Started d w₀ ∧ Run (TcpStep q) w₀ es w ∧ P w := by
  obtain ⟨w₀, w, h0, hrun, hP⟩ := exists_run_of _ es fuel h
  exact ⟨w₀, w, h0, hrun.mono fun _ _ _ => tcpStep_of_check, hP⟩

/-- What a run does to the stream. -/
structure Decodes (d : LengthFieldBasedFrameDecoder) (S : List UInt8) (C p C' p' : Nat) (t : List Decoded)
    (es : List Input) (w w' : Connection) : Prop where
  le : C ≤ C'
  trace : w'.decoder.trace = w.decoder.trace ++ t
  segment : d.Trace S p t p'
  fired : exceptions t = [] → w'.fired.map (·.bytes) = w.fired.map (·.bytes) ++ frames t
  stable : ∀ m ∈ w.held, .release m ∉ es → m ∈ w'.held ∧ w'.readableOf m = w.readableOf m
  connected : w.connected_ = true → w'.connected_ = true

theorem Session.run (hd : d.Supported) (hq : q.Transparent) (h : Session d S C p w) (hrun : Run (TcpStep q) w es w') :
    ∃ C' p' t, Session d (S ++ stream es) C' p' w' ∧ Decodes d (S ++ stream es) C p C' p' t es w w' := by
  induction hrun with
  | nil =>
    rw [stream_nil, List.append_nil]
    exact ⟨C, p, [], h, Nat.le_refl _, by simp, .nil p, by simp [frames], fun m hm _ => ⟨hm, rfl⟩, fun hc => hc⟩
  | @snoc es e w₁ w₂ _ hst ih =>
    obtain ⟨C₁, p₁, t₁, h₁, D₁⟩ := ih
    obtain ⟨C', p', t, lost, h', D, hstable⟩ := h₁.step hd hq hst
    rw [stream_append, stream_singleton, ← List.append_assoc]
    refine ⟨C', p', t₁ ++ t, h', D₁.le.trans D.le, ?_, (D₁.segment.append hd _).trans D.segment, fun hex => ?_,
      fun m hm hne => ?_, fun hc => D.connected (D₁.connected hc)⟩
    · rw [D.trace, D₁.trace, List.append_assoc]
    · rw [LengthFieldBasedFrameDecoder.exceptions_append, List.append_eq_nil_iff] at hex
      have hl := D.lost_eq
      rw [if_pos hex.2] at hl
      have := D.fired
      rw [hl, List.append_nil, D₁.fired hex.1] at this
      rw [this, LengthFieldBasedFrameDecoder.frames_append, List.append_assoc]
    · simp only [List.mem_append, List.mem_singleton, not_or] at hne
      obtain ⟨hm₁, hb₁⟩ := D₁.stable m hm hne.1
      obtain ⟨hm', hb'⟩ := hstable m hm₁ fun e => hne.2 e.symm
      exact ⟨hm', hb'.trans hb₁⟩

end Connection

end Nio.Net
