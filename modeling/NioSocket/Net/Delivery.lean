import NioSocket.Net.Stream

/-!
# What is delivered

A stream of well-formed frames reaches the handlers as these frames, in order and
stripped, however it is cut into reads, as long as there is room for the next read in the
decoder's buffer (`frames_are_delivered`).
-/

namespace Nio.Net

open Buffer (UnpooledHeapCharBuf)
open Buffer.UnpooledHeapCharBuf (IsInt charBuf)

namespace LengthFieldBasedFrameDecoder

/-- A frame as a sender makes it, whose adjusted length `int` and `long` hold. -/
structure WellFormed (d : LengthFieldBasedFrameDecoder) (f : List UInt8) : Prop where
  field_nonneg : 0 ≤ d.lengthField f
  length_eq : d.lengthField f + d.lengthAdjustment_ + d.lengthFieldEndOffset_ = f.length
  isInt : IsInt (d.lengthAdjustment_ + d.lengthFieldEndOffset_)
  end_le : d.lengthFieldEndOffset_ ≤ f.length
  le_max : f.length ≤ d.maxFrameLength_
  strip_le : d.initialBytesToStrip_ ≤ f.length

/-- The beginning of a frame, or nothing. -/
def Unfinished (d : LengthFieldBasedFrameDecoder) (g : List UInt8) : Prop :=
  g = [] ∨ ∃ f, d.WellFormed f ∧ g <+: f ∧ g ≠ f

/-- What is delivered of a frame. -/
def stripped (d : LengthFieldBasedFrameDecoder) (f : List UInt8) : List UInt8 := f.drop d.initialBytesToStrip_.toNat

variable {d : LengthFieldBasedFrameDecoder} {f g l r S : List UInt8} {fs : List (List UInt8)} {t : List Decoded}
  {p p' : Nat}

theorem WellFormed.item (hd : d.Supported) (hf : d.WellFormed f) : d.item (f ++ r) = some (.frame f.length) := by
  have h0 := hf.field_nonneg
  have hlen := hf.length_eq
  have hend := hf.end_le
  have hmax := hf.le_max
  have hmax' := hd.max_le
  have hstrip := hf.strip_le
  have hfl : d.frameLength f = f.length := by
    show i64 (d.lengthField f + i32 (d.lengthAdjustment_ + d.lengthFieldEndOffset_)) = _
    rw [i32_eq hf.isInt.1 hf.isInt.2, i64_eq (by omega) (by omega)]
    omega
  have hle : (f.length : Int) ≤ (f ++ r).length := by rw [List.length_append]; omega
  rw [LengthFieldBasedFrameDecoder.item, lengthField_append hd hend, frameLength_append hd hend, hfl,
    if_neg (by omega), if_neg (by omega), if_neg (by omega), if_neg (by omega), if_neg (by omega), if_neg (by omega)]

theorem WellFormed.outcome (hd : d.Supported) (hf : d.WellFormed f) :
    d.outcome (f ++ r) (.frame f.length) = .frame (d.stripped f) := by
  have h0 := hd.strip_nonneg
  have hstrip := hf.strip_le
  have hit : d.item f = some (.frame f.length) := by
    have := hf.item (r := []) hd
    rwa [List.append_nil] at this
  rw [outcome_append hd hit, LengthFieldBasedFrameDecoder.outcome, stripped, List.take_of_length_le]
  rw [List.length_drop]
  omega

theorem forall_wellFormed_nil (d : LengthFieldBasedFrameDecoder) : ∀ f ∈ ([] : List (List UInt8)), d.WellFormed f :=
  fun _ h => by cases h

theorem Unfinished.item (hd : d.Supported) (hg : d.Unfinished g) : d.item g = none := by
  rcases hg with rfl | ⟨f, hf, ⟨r, rfl⟩, hne⟩
  · exact item_nil hd
  cases hit : d.item g with
  | none => rfl
  | some it =>
    have h1 := hf.item (r := []) hd
    rw [List.append_nil, item_append hd hit] at h1
    obtain rfl := Option.some.inj h1
    have := (item_bounds hd hit).2.2 fun n e => by cases e
    simp only [Item.length, List.length_append] at this
    have hr : r = [] := List.eq_nil_of_length_eq_zero (by omega)
    rw [hr, List.append_nil] at hne
    exact absurd rfl hne

/-- The beginning of a stream of frames is such a stream. -/
theorem exists_frames_of_prefix (hfs : ∀ f ∈ fs, d.WellFormed f) (hg : d.Unfinished g) (hl : l <+: fs.flatten ++ g) :
    ∃ (fs' : List (List UInt8)) (g' : List UInt8), (∀ f ∈ fs', d.WellFormed f) ∧ d.Unfinished g' ∧ l = fs'.flatten ++ g' := by
  induction fs generalizing l with
  | nil =>
    refine ⟨[], l, by simp, ?_, rfl⟩
    rcases hg with rfl | ⟨f, hf, hgf, hne⟩
    · exact .inl (by simpa using hl)
    · refine .inr ⟨f, hf, (show l <+: g from hl).trans hgf, fun e => hne ?_⟩
      exact hgf.eq_of_length_le (e ▸ (show l <+: g from hl).length_le)
  | cons f fs ih =>
    rw [List.flatten_cons, List.append_assoc] at hl
    by_cases hlen : l.length < f.length
    · have hlf : l <+: f := List.prefix_of_prefix_length_le hl (List.prefix_append _ _) (Nat.le_of_lt hlen)
      refine ⟨[], l, by simp, .inr ⟨f, hfs f List.mem_cons_self, hlf, fun e => ?_⟩, rfl⟩
      rw [e] at hlen
      exact Nat.lt_irrefl _ hlen
    · obtain ⟨l', rfl⟩ : f <+: l := List.prefix_of_prefix_length_le (List.prefix_append _ _) hl (by omega)
      obtain ⟨fs', g', h1, h2, h3⟩ := ih (fun f hf => hfs f (List.mem_cons_of_mem _ hf))
        ((List.prefix_append_right_inj f).mp hl)
      refine ⟨f :: fs', g', fun x hx => ?_, h2, by rw [List.flatten_cons, List.append_assoc, ← h3]⟩
      rcases List.mem_cons.mp hx with rfl | hx
      · exact hfs x List.mem_cons_self
      · exact h1 x hx

/-- A trace of a stream of frames, up to where it waits for more. -/
theorem Trace.wellFormed (hd : d.Supported) (h : Trace d S p t p') (hfs : ∀ f ∈ fs, d.WellFormed f)
    (hg : d.Unfinished g) (hS : S.drop p = fs.flatten ++ g) (hp : p ≤ S.length) (hnone : d.item (S.drop p') = none) :
    p' = p + fs.flatten.length ∧ frames t = fs.map d.stripped ∧ exceptions t = [] := by
  induction h generalizing fs with
  | nil p =>
    cases fs with
    | nil => exact ⟨rfl, rfl, rfl⟩
    | cons f fs =>
      rw [hS, List.flatten_cons, List.append_assoc, (hfs f List.mem_cons_self).item hd] at hnone
      cases hnone
  | look _ _ _ ih => exact ih hfs hS hp hnone
  | @item t p p' it hit _ ih =>
    cases fs with
    | nil =>
      rw [hS, List.flatten_nil, List.nil_append, hg.item hd] at hit
      cases hit
    | cons f fs =>
      have hf := hfs f List.mem_cons_self
      rw [List.flatten_cons, List.append_assoc] at hS
      rw [hS, hf.item hd] at hit
      obtain rfl := Option.some.inj hit
      have hlen := congrArg List.length hS
      rw [List.length_drop, List.length_append] at hlen
      have hdrop : S.drop (p + f.length) = fs.flatten ++ g := by
        rw [← List.drop_drop, hS, List.drop_left]
      obtain ⟨h1, h2, h3⟩ := ih (fun f hf => hfs f (List.mem_cons_of_mem _ hf)) hdrop
        (show p + f.length ≤ S.length by omega) hnone
      have hout : d.outcome (S.drop p) (.frame f.length) = .frame (d.stripped f) := by rw [hS, hf.outcome hd]
      refine ⟨?_, ?_, ?_⟩
      · rw [h1, List.flatten_cons, List.length_append]
        simp only [Item.length]
        omega
      · rw [hout, List.map_cons, ← h2]
        rfl
      · rw [hout]
        exact h3

end LengthFieldBasedFrameDecoder

namespace Connection

open LengthFieldBasedFrameDecoder (frames exceptions Unfinished stripped)

variable {d : LengthFieldBasedFrameDecoder} {S g bytes : List UInt8} {fs : List (List UInt8)} {C p : Nat}
  {w w' w₀ w₁ : Connection} {q : Pipeline} {es es₁ es₂ : List Input} {t : List Decoded}

/-- What the decoder has not decoded yet. -/
def pending (w : Connection) : List UInt8 :=
  match w.decoder.cumulation_ with
  | some c => (w.heap c).readable
  | none => []

theorem Session.pending (h : Session d S C p w) : w.pending = S.drop C := by
  unfold Connection.pending
  by_cases hC : C = S.length
  · rw [h.core.none_of_done hC, List.drop_eq_nil_of_le (by omega)]
  · obtain ⟨c, hc, -, hr, -⟩ := h.core.reading hC
    rw [hc]
    exact hr

/-- Between two reads of a stream of frames the decoder has been through the whole ones. -/
theorem Session.wellFormed (hd : d.Supported) (h : Session d S C p w) (ht : d.Trace S 0 t p)
    (hfs : ∀ f ∈ fs, d.WellFormed f) (hg : d.Unfinished g) (hS : S = fs.flatten ++ g) :
    C = fs.flatten.length ∧ p = C ∧ frames t = fs.map d.stripped ∧ exceptions t = [] := by
  obtain ⟨hp, hf, he⟩ := ht.wellFormed hd hfs hg (by rw [List.drop_zero, hS]) (Nat.zero_le _) (h.item_none hd)
  have hle := h.core.le
  have hlen : S.length = fs.flatten.length + g.length := by rw [hS, List.length_append]
  have hC : C = p := by
    rcases h.core.done with hC | ⟨hC, -⟩
    · omega
    · exact hC
  exact ⟨by omega, hC.symm, hf, he⟩

/-- A stream of frames never makes the decoder discard anything. -/
theorem Session.run_wellFormed (hd : d.Supported) (hq : q.Transparent) (h : Session d S C p w) (ht : d.Trace S 0 t p)
    (hes : ∀ e ∈ es, e.OfStream) (hfs : ∀ f ∈ fs, d.WellFormed f) (hg : d.Unfinished g)
    (hS : S ++ stream es <+: fs.flatten ++ g) (hrun : Run (Step q) w es w') : Run (TcpStep q) w es w' := by
  induction hrun with
  | nil => exact .nil
  | @snoc es e w₁ w₂ _ hst ih =>
    rw [stream_append, ← List.append_assoc] at hS
    have hpre : S ++ stream es <+: fs.flatten ++ g := (List.prefix_append _ _).trans hS
    have hrun := ih (fun e he => hes e (List.mem_append_left _ he)) hpre
    obtain ⟨C₁, p₁, t₁, h₁, D₁⟩ := h.run hd hq hrun
    obtain ⟨fs', g', hfs', hg', hS'⟩ := LengthFieldBasedFrameDecoder.exists_frames_of_prefix hfs hg hpre
    obtain ⟨-, hp, -⟩ := h₁.wellFormed hd ((ht.append hd _).trans D₁.segment) hfs' hg' hS'
    refine .snoc hrun ⟨hst, hes e (by simp), ?_⟩
    rw [h₁.bytesToDiscard, hp]
    omega

end Connection

open Connection in
/-- Whatever the reads of a `TcpConnection`, the handlers get the frames, the rest waits in the decoder's
buffer, what they keep of a frame does not change, and the next read completes if there is room for it. -/
theorem frames_are_delivered {a b c x y : Int} (ha : IsInt a) (hb : IsInt b)
    (hc : c = 1 ∨ c = 2 ∨ c = 4 ∨ c = 8) {d : LengthFieldBasedFrameDecoder}
    (hd : LengthFieldBasedFrameDecoder.new a b c x y = .ok d) {q : Pipeline} (hq : q.Transparent)
    {fs : List (List UInt8)} {g : List UInt8} (hfs : ∀ f ∈ fs, d.WellFormed f) (hg : d.Unfinished g)
    {w₀ w₁ w : Connection} {es₁ es₂ : List Input} (hes : ∀ e ∈ es₁ ++ es₂, e.OfStream)
    (hS : stream (es₁ ++ es₂) = fs.flatten ++ g) (h0 : Started d w₀) (h₁ : Run (Step q) w₀ es₁ w₁)
    (h₂ : Run (Step q) w₁ es₂ w) :
    w.fired.map (·.bytes) = fs.map d.stripped ∧ w.pending = g ∧
    (∀ m ∈ w₁.held, .release m ∉ es₂ → m ∈ w.held ∧ w.readableOf m = w₁.readableOf m) ∧
    ∀ bytes, (Input.read bytes).Enabled w → ((∃ w', Step q w (.read bytes) w') ↔ w.Room bytes) := by
  have hsup := LengthFieldBasedFrameDecoder.new_supported hd ha hb hc
  have hacc := LengthFieldBasedFrameDecoder.new_becomes hd ha hb
  obtain ⟨hs₀, hfired, -⟩ := Session.started hacc (LengthFieldBasedFrameDecoder.new_eq hd).2.2.2.2 h0
  rw [stream_append] at hS
  have hrun₁ := hs₀.run_wellFormed hsup hq (.nil 0) (fun e he => hes e (List.mem_append_left _ he)) hfs hg
    (by rw [← hS]; exact List.prefix_append _ _) h₁
  obtain ⟨C₁, p₁, t₁, hs₁, D₁⟩ := hs₀.run hsup hq hrun₁
  have hrun₂ := hs₁.run_wellFormed hsup hq D₁.segment (fun e he => hes e (List.mem_append_right _ he)) hfs hg
    (by rw [List.nil_append]; exact hS ▸ List.prefix_refl _) h₂
  obtain ⟨C, p, t₂, h, D₂⟩ := hs₁.run hsup hq hrun₂
  rw [List.nil_append] at h D₁ D₂
  obtain ⟨hC, hp, hframes, hexc⟩ := h.wellFormed hsup ((D₁.segment.append hsup _).trans D₂.segment) hfs hg hS
  rw [LengthFieldBasedFrameDecoder.exceptions_append, List.append_eq_nil_iff] at hexc
  refine ⟨?_, ?_, D₂.stable, fun bytes hen => ⟨fun ⟨w', hst⟩ => ?_, fun hroom => ?_⟩⟩
  · rw [D₂.fired hexc.2, D₁.fired hexc.1, hfired, ← hframes, LengthFieldBasedFrameDecoder.frames_append]
    rfl
  · rw [h.pending, hS, hC, List.drop_left]
  · exact (h.step_read hsup hq (by omega) hst).1
  · exact h.completes hsup hq (by omega) hen hroom

theorem frames_are_delivered_two_reads :
    ∃ w₀ w, Started twoByteLengths w₀ ∧
      Run (Step ⟨[.adapter], true, []⟩) w₀ [.connect, .read [0], .read [1, 7, 0]] w ∧
      w.fired.map (·.bytes) = [[0, 1, 7]] ∧ w.pending = [0] := by
  obtain ⟨w₀, w, h0, h, -⟩ := Connection.exists_run (d := twoByteLengths) (p := ⟨[.adapter], true, []⟩)
    [.connect, .read [0], .read [1, 7, 0]] 5 (P := fun _ => True) (by decide +kernel)
  have hf : twoByteLengths.WellFormed [0, 1, 7] :=
    ⟨by decide, by decide, ⟨by decide, by decide⟩, by decide, by decide, by decide⟩
  have := frames_are_delivered (a := 64) (b := 0) (c := 2) (x := 0) (y := 0) (d := twoByteLengths) (g := [0])
    ⟨by decide, by decide⟩ ⟨by decide, by decide⟩ (.inr (.inl rfl)) rfl ⟨rfl, by simp [Handler.adapter], by simp [Handler.adapter]⟩
    (show ∀ f ∈ [[0, 1, 7]], twoByteLengths.WellFormed f by simpa using hf) (.inr ⟨_, hf, by decide, by decide⟩) (by simp [Input.OfStream]) rfl h0 h .nil
  exact ⟨w₀, w, h0, h, this.1, this.2.1⟩

/-! ## A frame there is no room for -/

namespace Connection

variable {d : LengthFieldBasedFrameDecoder} {f S : List UInt8} {n C p : Nat} {w w₀ : Connection} {q : Pipeline}

/-- A connection that stays open can always read a byte. -/
theorem Session.enabled (h : Session d S C p w) (hc : w.connected_ = true) (b : UInt8) :
    (Input.read [b]).Enabled w := by
  obtain ⟨a, ha, hs, h0, -⟩ := h.empty
  have hpos := hs.capacity_pos
  refine ⟨by simp, hc, a, ha, ?_⟩
  rw [hs.toValid.writableBytes, h0, List.length_singleton]
  omega

/-- A frame that arrives byte by byte, of which nothing is decoded before it is there as a whole. -/
theorem Session.feed (hd : d.Supported) (hq : q.Transparent) (hf : d.WellFormed f) (h0 : Session d [] 0 0 w₀)
    (hc : w₀.connected_ = true) (hn : n < f.length) (hle : n ≤ 2 ^ 30) :
    ∃ es w, (∀ e ∈ es, e.OfStream) ∧ Run (Step q) w₀ es w ∧ stream es = f.take n ∧ w.connected_ = true ∧
      Session d (f.take n) 0 0 w := by
  induction n with
  | zero => exact ⟨[], w₀, by simp, .nil, rfl, hc, h0⟩
  | succ n ih =>
    obtain ⟨es, w, hes, hrun, hstream, hconn, hs⟩ := ih (by omega) (by omega)
    have hroom : w.Room [f[n]] := fun c hcum => by
      by_cases h : 0 = (f.take n).length
      · rw [hs.core.none_of_done h] at hcum
        cases hcum
      · obtain ⟨c', hc', -, -, hw⟩ := hs.core.reading h
        obtain rfl : c' = c := Option.some.inj (hc'.symm.trans hcum)
        rw [List.length_take] at hw
        rw [List.length_singleton]
        omega
    have htake : f.take n ++ [f[n]] = f.take (n + 1) := by simp
    obtain ⟨w', hst⟩ := hs.completes hd hq (Nat.zero_le _) (hs.enabled hconn _) hroom
    obtain ⟨C, p, t, lost, hs', D, -⟩ := hs.step hd hq ⟨hst, trivial, by rw [hs.bytesToDiscard]; decide⟩
    rw [show f.take n ++ (Input.read [f[n]]).bytes = f.take (n + 1) from htake] at hs' D
    have hg : d.Unfinished (f.take (n + 1)) := .inr ⟨f, hf, List.take_prefix _ _, fun e => by
      have := congrArg List.length e
      rw [List.length_take] at this
      omega⟩
    obtain ⟨hC, hp, -⟩ := hs'.wellFormed hd D.segment d.forall_wellFormed_nil hg rfl
    obtain rfl : C = 0 := hC
    subst hp
    refine ⟨es ++ [.read [f[n]]], w', fun e he => ?_, .snoc hrun hst, ?_, D.connected hconn, hs'⟩
    · rcases List.mem_append.mp he with h | h
      · exact hes e h
      · rw [List.mem_singleton.mp h]
        trivial
    · rw [stream_append, hstream]
      exact htake

/-- Once `2 ^ 30` bytes wait in the decoder's buffer, the next read never ends. -/
theorem Session.stuck (hq : q.Transparent) (h : Session d S 0 0 w) (hlen : S.length = 2 ^ 30) (b : UInt8)
    (w' : Connection) : ¬Step q w (.read [b]) w' := by
  rintro ⟨hen, fuel, e⟩
  obtain ⟨c, hc, hs, hread, -⟩ := h.core.reading (by omega)
  have hl := UnpooledHeapCharBuf.length_readable (w.heap c)
  have hr := hs.reader_nonneg
  rw [hread, List.drop_zero] at hl
  have := h.read_hang hq hen hc (by rw [List.length_singleton]; omega) fuel
  cases this.symm.trans (show tcpHandleRead q fuel [b] w = _ from e)

end Connection

/-- A decoder of frames behind four bytes of length. -/
def fourByteLengths : LengthFieldBasedFrameDecoder :=
  ⟨2147483647, 0, 4, 4, 0, 0, true, false, 0, 0⟩

/-- A length field of `2 ^ 30 - 3`, and `n` more bytes. -/
def longFrame (n : Nat) : List UInt8 := [63, 255, 255, 253] ++ List.replicate n 0

theorem length_longFrame (n : Nat) : (longFrame n).length = n + 4 := by
  rw [longFrame, List.length_append, List.length_replicate, Nat.add_comm]
  rfl

theorem longFrame_succ (n : Nat) : longFrame (n + 1) = longFrame n ++ [0] := by
  rw [longFrame, longFrame, List.replicate_succ', List.append_assoc]

theorem longFrame_wellFormed : fourByteLengths.WellFormed (longFrame 1073741821) := by
  have hlen : (longFrame 1073741821).length = 1073741825 := length_longFrame _
  have hfield : ∀ n, fourByteLengths.lengthField (longFrame n) = 1073741821 := fun _ => rfl
  refine ⟨?_, ?_, ⟨by decide, by decide⟩, ?_, ?_, ?_⟩
  · rw [hfield]; decide
  · rw [hfield, hlen]; decide
  · rw [hlen]; decide
  · rw [hlen]; decide
  · rw [hlen]; decide

/-- A frame the constructor's arguments allow, whose last byte is never read. -/
theorem long_frame_not_delivered :
    LengthFieldBasedFrameDecoder.new 2147483647 0 4 0 0 = .ok fourByteLengths ∧
    fourByteLengths.WellFormed (longFrame 1073741821) ∧
    ∃ w₀ es w, Started fourByteLengths w₀ ∧ (∀ e ∈ es, e.OfStream) ∧ Run (Step ⟨[], true, []⟩) w₀ es w ∧
      longFrame 1073741821 = stream es ++ [0] ∧ (Input.read [0]).Enabled w ∧
      ∀ w', ¬Step ⟨[], true, []⟩ w (.read [0]) w' := by
  have hq : Pipeline.Transparent ⟨[], true, []⟩ := ⟨rfl, by simp, by simp⟩
  have hnew : LengthFieldBasedFrameDecoder.new 2147483647 0 4 0 0 = .ok fourByteLengths := rfl
  have hf := longFrame_wellFormed
  have hd : fourByteLengths.Supported :=
    LengthFieldBasedFrameDecoder.new_supported hnew ⟨by decide, by decide⟩ ⟨by decide, by decide⟩ (by decide)
  have hacc : fourByteLengths.Becomes fourByteLengths :=
    LengthFieldBasedFrameDecoder.new_becomes hnew ⟨by decide, by decide⟩ ⟨by decide, by decide⟩
  have hlen : (longFrame 1073741821).length = 2 ^ 30 + 1 := length_longFrame _
  obtain ⟨w₀, w₁, h0, hrun, hc⟩ := Connection.exists_run (d := fourByteLengths) (p := ⟨[], true, []⟩) [.connect] 5
    (P := fun w => w.connected_ = true) (by decide +kernel)
  obtain ⟨hs₀, -, -⟩ := Connection.Session.started hacc rfl h0
  have hrun' := hs₀.run_wellFormed (g := []) hd hq (.nil 0) (by simp [Input.OfStream])
    fourByteLengths.forall_wellFormed_nil (.inl rfl)
    (show [] ++ stream [.connect] <+: [] from List.nil_prefix) hrun
  obtain ⟨C, p, t, hs₁, D₁⟩ := hs₀.run hd hq hrun'
  obtain ⟨hC, hp, -⟩ := hs₁.wellFormed (g := []) hd D₁.segment fourByteLengths.forall_wellFormed_nil (.inl rfl) rfl
  obtain rfl : C = 0 := hC
  subst hp
  obtain ⟨es, w, hes, hrun₂, hstream, hconn, hs⟩ := Connection.Session.feed (n := 2 ^ 30) hd hq hf hs₁ hc (by omega) (Nat.le_refl _)
  refine ⟨hnew, hf, w₀, .connect :: es, w, h0, fun e he => ?_, hrun.append hrun₂, ?_, hs.enabled hconn 0,
    fun w' => hs.stuck hq ?_ 0 w'⟩
  · rcases List.mem_cons.mp he with rfl | he
    · trivial
    · exact hes e he
  · rw [show stream (.connect :: es) = stream es from rfl, hstream, longFrame_succ 1073741820,
      List.take_left' (show (longFrame 1073741820).length = 2 ^ 30 from length_longFrame _)]
  · rw [List.length_take, hlen]
    rfl

end Nio.Net
