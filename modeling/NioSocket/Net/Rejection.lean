import NioSocket.Net.Stream

/-!
# Frames next to rejected ones

One read with several complete units, some of which `decode` rejects: `callDecode` fires a
frame only when it goes on to the next unit, and what is in `out` at its end is fired only
if nothing was rejected. So the frames of the read are all fired unless the last unit is
one and another was rejected (`frames_are_fired_iff`).
-/

namespace Nio.Net

open Buffer.UnpooledHeapCharBuf (IsInt charBuf)

namespace LengthFieldBasedFrameDecoder

/-- The item is a frame. -/
def Item.isFrame : Item → Bool
  | .frame _ => true
  | .rejected _ _ | .tooLong _ => false

/-- `l` is a sequence of complete items, one for each of `its`. -/
inductive Units (d : LengthFieldBasedFrameDecoder) : List UInt8 → List Item → Prop
  | nil : Units d [] []
  | cons {l : List UInt8} {it : Item} {its : List Item} : d.item l = some it → it.length ≤ l.length →
      Units d (l.drop it.length.toNat) its → Units d l (it :: its)

/-- What `decode` does with units, one after another. -/
def outcomes (d : LengthFieldBasedFrameDecoder) : List UInt8 → List Item → List Decoded
  | _, [] => []
  | l, it :: its => d.outcome l it :: outcomes d (l.drop it.length.toNat) its

variable {d : LengthFieldBasedFrameDecoder} {l S : List UInt8} {it : Item} {its : List Item} {t : List Decoded}
  {p p' : Nat}

theorem Units.eq_nil (h : d.Units l []) : l = [] := by
  cases h
  rfl

theorem Units.of_cons (h : d.Units l (it :: its)) :
    d.item l = some it ∧ it.length ≤ l.length ∧ d.Units (l.drop it.length.toNat) its := by
  cases h
  exact ⟨‹_›, ‹_›, ‹_›⟩

theorem exceptions_outcome : exceptions [d.outcome l it] = [] ↔ it.isFrame = true := by
  cases it with
  | rejected | tooLong => exact iff_of_false (List.cons_ne_nil _ _) Bool.false_ne_true
  | frame => exact iff_of_true rfl rfl

theorem exceptions_outcomes (d : LengthFieldBasedFrameDecoder) (l : List UInt8) (its : List Item) :
    exceptions (d.outcomes l its) = [] ↔ ∀ it ∈ its, it.isFrame = true := by
  induction its generalizing l with
  | nil => simp [outcomes, exceptions]
  | cons it its ih =>
    rw [outcomes, ← List.singleton_append, exceptions_append, List.append_eq_nil_iff, exceptions_outcome, ih,
      List.forall_mem_cons]

theorem getLast?_outcomes (d : LengthFieldBasedFrameDecoder) (l : List UInt8) (its : List Item) :
    (∃ bytes, (d.outcomes l its).getLast? = some (.frame bytes)) ↔ ∃ it ∈ its.getLast?, it.isFrame = true := by
  induction its generalizing l with
  | nil => simp [outcomes]
  | cons it its ih =>
    cases its with
    | nil => cases it <;> simp [outcomes, outcome, Item.isFrame]
    | cons it' its =>
      have := ih (l.drop it.length.toNat)
      rwa [outcomes, List.getLast?_cons_cons] at *

/-- A trace of units, up to their end. -/
theorem Trace.units (hd : d.Supported) (h : Trace d S p t p') (hu : d.Units (S.drop p) its) (hp : p ≤ S.length)
    (hnone : d.item (S.drop p') = none) : p' = S.length ∧ frames t = frames (d.outcomes (S.drop p) its) ∧
      exceptions t = exceptions (d.outcomes (S.drop p) its) ∧
      t.getLast? = (d.outcomes (S.drop p) its).getLast? := by
  have hnil : ∀ {q : Nat}, q ≤ S.length → d.Units (S.drop q) [] → q = S.length := fun hq hu =>
    Nat.le_antisymm hq (List.drop_eq_nil_iff.mp hu.eq_nil)
  induction h generalizing its with
  | nil p =>
    cases its with
    | nil => exact ⟨hnil hp hu, rfl, rfl, rfl⟩
    | cons => cases hu.of_cons.1.symm.trans hnone
  | @look t p p' hl _ _ ih =>
    obtain ⟨h1, h2, h3, h4⟩ := ih hu hp hnone
    refine ⟨h1, h2, h3, ?_⟩
    cases its with
    | nil =>
      have := end_pos hd
      rw [hnil hp hu, List.drop_length, List.length_nil] at hl
      omega
    | cons it its =>
      rw [List.getLast?_cons, h4, outcomes, List.getLast?_cons, Option.getD_some]
  | @item t p p' it hit _ ih =>
    cases its with
    | nil =>
      rw [hnil hp hu, List.drop_length, item_nil hd] at hit
      cases hit
    | cons it' its =>
      obtain ⟨hit', hle, hu'⟩ := hu.of_cons
      obtain rfl := Option.some.inj (hit.symm.trans hit')
      have hpos := (item_bounds hd hit).1
      rw [List.length_drop] at hle
      rw [List.drop_drop] at hu'
      obtain ⟨h1, h2, h3, h4⟩ := ih hu' (by omega) hnone
      rw [outcomes, List.drop_drop]
      refine ⟨h1, ?_, ?_, ?_⟩
      · show frames (d.outcome (S.drop p) it :: t) = _
        rw [frames_cons, h2, ← frames_cons]
      · show exceptions (d.outcome (S.drop p) it :: t) = _
        rw [exceptions_cons, h3, ← exceptions_cons]
      · rw [List.getLast?_cons, List.getLast?_cons, List.getLast?_cons, h4]
        rfl

end LengthFieldBasedFrameDecoder

open LengthFieldBasedFrameDecoder (frames exceptions Item)

namespace Connection

variable {d : LengthFieldBasedFrameDecoder} {S bytes : List UInt8} {C p : Nat} {w w' : Connection} {q : Pipeline}
  {its : List Item}

/-- The decoder has nothing left to decode, and nothing to discard. -/
def Idle (w : Connection) : Prop :=
  w.decoder.cumulation_ = none ∧ w.decoder.frameDecoder.bytesToDiscard_ = 0

theorem Session.idle (h : Session d S C p w) (hidle : w.Idle) : C = S.length ∧ p = C := by
  have hle := h.core.le
  have hb := h.bytesToDiscard
  rw [hidle.2] at hb
  refine ⟨?_, by omega⟩
  by_contra hC
  obtain ⟨c, hc, -⟩ := h.core.reading hC
  cases hidle.1.symm.trans hc

theorem leftOver_eq_nil (t : List Decoded) : leftOver t True = [] ↔ ¬∃ bytes, t.getLast? = some (.frame bytes) := by
  unfold leftOver
  split
  · rename_i bytes h
    exact iff_of_false (List.cons_ne_nil _ _) (not_not_intro ⟨bytes, h⟩)
  · rename_i h
    exact iff_of_true rfl fun ⟨bytes, h'⟩ => h bytes h'

/-- What a read of units fires, and what it loses. -/
theorem Session.units (hd : d.Supported) (hq : q.Transparent) (h : Session d S C p w) (hidle : w.Idle)
    (hu : d.Units bytes its) (hst : Step q w (.read bytes) w') :
    ∃ lost, w'.fired.map (·.bytes) ++ lost = w.fired.map (·.bytes) ++ frames (d.outcomes bytes its) ∧
      (lost = [] ↔ (∀ it ∈ its, it.isFrame = true) ∨ ¬∃ it ∈ its.getLast?, it.isFrame = true) := by
  obtain ⟨hC, rfl⟩ := h.idle hidle
  obtain ⟨-, C', p', t, lost, h', D, -⟩ := h.step_read hd hq (by omega) hst
  have hdrop : (S ++ bytes).drop p = bytes := by rw [hC, List.drop_left]
  have hnone := h'.item_none hd
  obtain ⟨hp', hf, he, hl⟩ := D.segment.units hd (by rw [hdrop]; exact hu) (by rw [hC, List.length_append]; omega) hnone
  rw [hdrop] at hf he hl
  have hC' : C' = (S ++ bytes).length := by
    have hle := h'.core.le
    rcases h'.core.done with hC' | ⟨hC', -⟩
    · exact hC'
    · omega
  refine ⟨lost, by rw [D.fired, hf], ?_⟩
  have hlost := D.lost_eq
  simp only [hC'] at hlost
  rw [hlost, he, ← LengthFieldBasedFrameDecoder.exceptions_outcomes d bytes,
    ← LengthFieldBasedFrameDecoder.getLast?_outcomes d bytes, ← hl]
  by_cases hex : exceptions (d.outcomes bytes its) = []
  · rw [if_pos hex]
    exact iff_of_true rfl (.inl hex)
  · rw [if_neg hex, leftOver_eq_nil]
    exact ⟨.inr, fun h => h.resolve_left hex⟩

end Connection

open Connection in
/-- A read of complete units completes, and fires the frames among them in order: all of them if and
only if no unit is rejected, or the last one is. -/
theorem frames_are_fired_iff {a b c x y : Int} (ha : IsInt a) (hb : IsInt b)
    (hc : c = 1 ∨ c = 2 ∨ c = 4 ∨ c = 8) {d : LengthFieldBasedFrameDecoder}
    (hd : LengthFieldBasedFrameDecoder.new a b c x y = .ok d) {q : Pipeline} (hq : q.Transparent)
    {w₀ w : Connection} {es : List Input} (h0 : Started d w₀) (hrun : Run (TcpStep q) w₀ es w) (hidle : w.Idle)
    {bytes : List UInt8} {its : List Item} (hu : d.Units bytes its) (hen : (Input.read bytes).Enabled w) :
    (∃ w', Step q w (.read bytes) w') ∧ ∀ w', Step q w (.read bytes) w' →
      (w'.fired.map (·.bytes) = w.fired.map (·.bytes) ++ frames (d.outcomes bytes its) ↔
        (∀ it ∈ its, it.isFrame = true) ∨ ¬∃ it ∈ its.getLast?, it.isFrame = true) := by
  have hsup := LengthFieldBasedFrameDecoder.new_supported hd ha hb hc
  have hacc := LengthFieldBasedFrameDecoder.new_becomes hd ha hb
  obtain ⟨hs₀, -, -⟩ := Session.started hacc (LengthFieldBasedFrameDecoder.new_eq hd).2.2.2.2 h0
  obtain ⟨C, p, t, h, -⟩ := hs₀.run hsup hq hrun
  have hp := (h.idle hidle).2
  refine ⟨h.completes hsup hq (by omega) hen fun c hcum => ?_, fun w' hst => ?_⟩
  · rw [hidle.1] at hcum
    cases hcum
  obtain ⟨lost, hfired, hlost⟩ := h.units hsup hq hidle hu hst
  rw [← hlost, ← hfired]
  exact List.self_eq_append_right

/-- A decoder of frames of up to 64 bytes behind one byte of length. -/
def oneByteLengths : LengthFieldBasedFrameDecoder :=
  ⟨64, 0, 1, 1, 0, 0, true, false, 0, 0⟩

/-- A frame is fired that a negative length field follows. -/
theorem frames_are_fired_iff_last_rejected :
    ∃ w₀ w w', Started oneByteLengths w₀ ∧ Run (TcpStep ⟨[], true, []⟩) w₀ [.connect] w ∧
      Step ⟨[], true, []⟩ w (.read [1, 7, 255]) w' ∧ w'.fired.map (·.bytes) = [[1, 7]] := by
  obtain ⟨w₀, w, h0, hrun, hidle, hen, hfired⟩ := Connection.exists_tcp_run (d := oneByteLengths)
    (q := ⟨[], true, []⟩) [.connect] 5 (P := fun w => (w.decoder.cumulation_ = none ∧
      w.decoder.frameDecoder.bytesToDiscard_ = 0) ∧ (Input.read [1, 7, 255]).Enabled w ∧ w.fired.map (·.bytes) = [])
    (by decide +kernel)
  have hu : oneByteLengths.Units [1, 7, 255]
      [.frame 2, .rejected 1 "negative pre-adjustment length field: -1"] :=
    .cons (by decide) (by decide) (.cons (by decide) (by decide) .nil)
  obtain ⟨⟨w', hst⟩, hall⟩ := frames_are_fired_iff (a := 64) (b := 0) (c := 1) (x := 0) (y := 0)
    ⟨by decide, by decide⟩ ⟨by decide, by decide⟩ (.inl rfl) rfl ⟨rfl, by simp, by simp⟩ h0 hrun hidle hu hen
  have hf := (hall w' hst).mpr (.inr (by decide))
  rw [hfired] at hf
  exact ⟨w₀, w, w', h0, hrun, hst, hf⟩

/-- A frame that follows a negative length field in the same read is lost. -/
theorem frame_behind_rejected_lost :
    LengthFieldBasedFrameDecoder.new 64 0 1 0 0 = .ok oneByteLengths ∧
    oneByteLengths.Units [255, 1, 7] [.rejected 1 "negative pre-adjustment length field: -1", .frame 2] ∧
    ∃ w₀ w, Started oneByteLengths w₀ ∧ Run (Step ⟨[], true, []⟩) w₀ [.connect, .read [255, 1, 7]] w ∧
      w.decoder.trace = [.field 0, .exception "negative pre-adjustment length field: -1", .field 1, .frame [1, 7]] ∧
      w.fired.map (·.bytes) = [] ∧ w.dropped = [.slice 0 ⟨1, 2⟩] ∧ (w.heap 0).refCnt_ = 1 :=
  ⟨rfl, .cons (by decide) (by decide) (.cons (by decide) (by decide) .nil), Connection.exists_run _ 5 (by decide +kernel)⟩

end Nio.Net
