import NioSocket.Net.AsyncWriter
import NioSocket.Net.Delivery

/-!
# From a writer to a reader

A `BoostAsyncWriter`, and the connection at the other end of its socket (`Link`): what the
socket has taken it keeps in order, and a read brings the next bytes of it, as many as it
happens to bring. The two sides take their steps in any order. As long as no write completes
with an error, the bytes the socket has taken are the messages that were not refused, the last
of them perhaps not yet whole (`Orderly`), and the handlers at the other end get a beginning of
these messages, stripped and in the order of their submission (`link_delivers`).
-/

namespace Nio.Net

/-! ## What is on the wire -/

namespace BoostAsyncWriter

variable {κ : Type} {cbs : Callbacks κ} {w w' : BoostAsyncWriter κ} {ev : Event κ} {e : Elem κ} {rest : List (Elem κ)}

/-- No message that was refused is on the wire, and those that were written went before those that wait. -/
structure Orderly (w : BoostAsyncWriter κ) : Prop where
  refused : ∀ id, (id, false) ∈ w.called → w.sent id = []
  before : ∀ id, (id, true) ∈ w.called → ∀ e ∈ w.outQueue_, id < e.id

/-- No write completes with an error. -/
def Event.Clean : Event κ → Prop
  | .complete error _ => error = false
  | _ => True

theorem init_orderly : Orderly (init : BoostAsyncWriter κ) := by
  constructor <;> simp [init]

theorem Orderly.congr (h : Orderly w) (hq : w'.outQueue_ = w.outQueue_) (hw : w'.wire = w.wire)
    (hc : w'.called = w.called) : Orderly w' where
  refused id hid := by
    rw [sent_congr hw]
    exact h.refused id (hc ▸ hid)
  before id hid e he := h.before id (hc ▸ hid) e (hq ▸ he)

/-- Of the messages behind the front nothing was sent. -/
theorem Core.unsent (h : Core w) (hq : w.outQueue_ = e :: rest) : ∀ f ∈ rest, w.sent f.id = [] := fun f hf =>
  part_eq_nil fun b hb => by
    have hsorted := h.queue_sorted
    rw [hq, List.map_cons, List.pairwise_cons] at hsorted
    have hlt : e.id < f.id := hsorted.1 _ (List.mem_map_of_mem hf)
    have hle := h.wire_le b hb e (hq ▸ List.mem_cons_self)
    omega

/-- Popping the front element, whose callback is invoked. -/
theorem Orderly.settle (h : Orderly w) (hc : Core w) (ok : Bool) (hq : w.outQueue_ = e :: rest)
    (hok : ok = false → w.sent e.id = []) (hq' : w'.outQueue_ = rest) (hw : w'.wire = w.wire)
    (hcalled : w'.called = w.called ++ [(e.id, ok)]) : Orderly w' := by
  have hsorted := hc.queue_sorted
  rw [hq, List.map_cons, List.pairwise_cons] at hsorted
  constructor
  · intro id hid
    rw [sent_congr hw]
    simp only [hcalled, List.mem_append, List.mem_singleton, Prod.mk.injEq] at hid
    rcases hid with hid | ⟨rfl, hid⟩
    · exact h.refused id hid
    · exact hok hid.symm
  · intro id hid f hf
    rw [hq'] at hf
    simp only [hcalled, List.mem_append, List.mem_singleton, Prod.mk.injEq] at hid
    rcases hid with hid | ⟨rfl, -⟩
    · exact h.before id hid f (hq ▸ List.mem_cons_of_mem _ hf)
    · exact hsorted.1 _ (List.mem_map_of_mem hf)

theorem clearQueue_orderly (h : Orderly w) (hc : Core w) (hno : ∀ f ∈ w.outQueue_, w.sent f.id = []) :
    Orderly (w.clearQueue cbs) := by
  rw [clearQueue]
  generalize hl : w.outQueue_ = l at hno
  induction l generalizing w with
  | nil => exact h
  | cons e l ih =>
    rw [List.foldl_cons]
    have hcore : Core { w.resultCb cbs e.id e.second false with outQueue_ := w.outQueue_.tail } :=
      hc.settle false hl (fun hf => by cases hf) (by rw [hl]; rfl) rfl rfl rfl
    refine ih ?_ hcore (by rw [hl]; rfl) fun f hf => hno f (List.mem_cons_of_mem _ hf)
    exact h.settle hc false hl (fun _ => hno e List.mem_cons_self) (by rw [hl]; rfl) rfl rfl

theorem write_orderly (h : Orderly w) (hw : w.write = some w') : Orderly w' := by
  unfold write at hw
  split at hw <;> cases hw
  exact h.congr rfl rfl rfl

theorem writeImpl_orderly (h : Orderly w) (hc : Core w) (m : List UInt8) (cb : κ)
    (hw : w.writeImpl cbs m cb = some w') : Orderly w' := by
  simp only [writeImpl, resultCb] at hw
  split at hw
  · cases hw
    refine ⟨fun id hid => ?_, fun id hid => h.before id ?_⟩
    · show w.sent id = []
      rcases List.mem_append.mp hid with hid | hid
      · exact h.refused id hid
      · obtain rfl := (Prod.mk.inj (List.mem_singleton.mp hid)).1
        exact hc.sent_fresh
    · simpa using hid
  · have hadd : Orderly { w with
        submitted := w.submitted ++ [⟨m, w.shutdown_⟩]
        outQueue_ := w.outQueue_ ++ [⟨w.submitted.length, m, cb⟩] } := by
      refine ⟨h.refused, fun id hid f hf => ?_⟩
      rcases List.mem_append.mp hf with hf | hf
      · exact h.before id hid f hf
      · rw [List.mem_singleton.mp hf]
        exact hc.calls_lt _ hid
    split at hw
    · exact write_orderly hadd hw
    · cases hw
      exact hadd

theorem handleWrite_orderly (h : Orderly w) (hi : Inv w) {l r : List (Nat × List UInt8)} {id n : Nat} {buf : List UInt8}
    (ha : w.asyncWrites = l ++ (id, buf) :: r)
    (hw : handleWrite cbs { w with asyncWrites := l ++ r,
                                   wire := w.wire ++ (buf.take n).map (id, ·) } false n = some w') : Orderly w' := by
  have hwr := hi.writes
  cases hq : w.outQueue_ with
  | nil => simp [hq, ha] at hwr
  | cons e rest =>
    obtain ⟨rfl, ⟨rfl, rfl⟩, rfl⟩ : l = [] ∧ (id = e.id ∧ buf = e.first) ∧ r = [] := by
      rw [ha, hq] at hwr
      simpa [List.append_eq_singleton_iff] using hwr
    have hmem : e ∈ w.outQueue_ := hq ▸ List.mem_cons_self
    have htake : Core { w with
        asyncWrites := []
        outQueue_ := { e with first := e.first.drop n } :: rest
        wire := w.wire ++ (e.first.take n).map (e.id, ·) } :=
      hi.toCore.take n hq rfl rfl rfl rfl
    have hord : Orderly { w with
        asyncWrites := []
        outQueue_ := { e with first := e.first.drop n } :: rest
        wire := w.wire ++ (e.first.take n).map (e.id, ·) } := by
      refine ⟨fun id hid => ?_, fun id hid f hf => ?_⟩
      · -- the message that is written was not called back
        have hne : id ≠ e.id := fun he => hi.toCore.not_called hmem (he ▸ hid)
        show part (w.wire ++ _) id = []
        rw [part_append, part_map_of_ne _ hne, List.append_nil]
        exact h.refused id hid
      · rcases List.mem_cons.mp hf with rfl | hf
        · exact h.before id hid e hmem
        · exact h.before id hid f (hq ▸ List.mem_cons_of_mem _ hf)
    simp only [handleWrite, hq, List.nil_append] at hw
    split at hw
    · have hdone : Orderly (resultCb cbs { w with
          asyncWrites := []
          outQueue_ := rest
          wire := w.wire ++ (e.first.take n).map (e.id, ·) } e.id e.second (!false)) :=
        hord.settle htake true rfl (fun hf => by cases hf) rfl rfl rfl
      split at hw
      · cases hw
        rename_i hge _
        have hlen : e.first.length ≤ n := by simpa using hge
        have hleft := htake.left _ List.mem_cons_self
        rw [List.drop_eq_nil_of_le hlen, List.append_nil] at hleft
        exact clearQueue_orderly hdone (htake.settle true rfl (fun _ => hleft) rfl rfl rfl rfl) (htake.unsent rfl)
      · obtain ⟨w₁, hw₁, rfl⟩ := Option.map_eq_some_iff.mp hw
        split at hw₁
        · cases hw₁
          exact hdone
        · unfold write at hw₁
          split at hw₁ <;> cases hw₁
          exact hdone.congr rfl rfl rfl
    · exact write_orderly hord hw

theorem step_orderly (h : Orderly w) (hi : Inv w) (hs : Step cbs w ev w') (he : ev.Clean) : Orderly w' := by
  cases hs with
  | call c => exact h.congr rfl rfl rfl
  | @strand _ c cs hq hw =>
    cases c with
    | write m cb =>
      have h' : Orderly { w with strand_ := cs } := h.congr rfl rfl rfl
      exact writeImpl_orderly h' (hi.toCore.congr rfl rfl rfl rfl) m cb hw
    | shutdown cb =>
      cases hw
      exact h.congr rfl rfl rfl
  | complete ha hn hw =>
    obtain rfl := he
    exact handleWrite_orderly h hi ha hw

/-! ### The bytes -/

/-- The messages that were not refused, in the order of their submission. -/
def accepted (w : BoostAsyncWriter κ) : List Nat :=
  (List.range w.submitted.length).filter fun id => (id, false) ∉ w.called

theorem mem_called (h : Core w) {id : Nat} (hid : id < w.submitted.length) (hq : ∀ e ∈ w.outQueue_, e.id ≠ id) :
    (id, true) ∈ w.called ∧ (id, false) ∉ w.called ∨ (id, true) ∉ w.called ∧ (id, false) ∈ w.called := by
  have hcount : w.calls id = 1 := by
    have h0 : (w.outQueue_.map (·.id)).count id = 0 := List.count_eq_zero.mpr fun hm => by
      obtain ⟨e, he, rfl⟩ := List.mem_map.mp hm
      exact hq e he rfl
    have := h.once id hid
    omega
  obtain ⟨⟨id', ok⟩, hc, rfl⟩ := List.mem_map.mp (List.count_pos_iff.mp (show 0 < w.calls id by omega))
  have hboth : ∀ {ok' : Bool}, (id', ok') ∈ w.called → ok' = ok := fun {ok'} hc' => by
    obtain ⟨l, r, hl⟩ := List.mem_iff_append.mp hc
    rw [calls, hl] at hcount
    rw [hl] at hc'
    simp only [List.map_append, List.map_cons, List.count_append, List.count_cons_self] at hcount
    rcases List.mem_append.mp hc' with hc' | hc'
    · have := List.count_pos_iff.mpr (List.mem_map_of_mem (f := (·.1)) hc')
      dsimp only at this
      omega
    · rcases List.mem_cons.mp hc' with hc' | hc'
      · exact (Prod.mk.inj hc').2
      · have := List.count_pos_iff.mpr (List.mem_map_of_mem (f := (·.1)) hc')
        dsimp only at this
        omega
  cases ok with
  | true => exact .inl ⟨hc, fun h => Bool.false_ne_true (hboth h)⟩
  | false => exact .inr ⟨fun h => Bool.false_ne_true (hboth h).symm, hc⟩

/-- The bytes of messages that were called back are those of the ones that were not refused. -/
theorem Orderly.flatMap_sent (h : Orderly w) (hc : Core w) {ids : List Nat}
    (hids : ∀ id ∈ ids, id < w.submitted.length ∧ ∀ e ∈ w.outQueue_, e.id ≠ id) :
    ids.flatMap w.sent = (ids.filter fun id => (id, false) ∉ w.called).flatMap w.message := by
  induction ids with
  | nil => rfl
  | cons id ids ih =>
    obtain ⟨hlt, hq⟩ := hids id List.mem_cons_self
    rw [List.flatMap_cons, List.filter_cons, ih fun i hi => hids i (List.mem_cons_of_mem _ hi)]
    rcases mem_called hc hlt hq with ⟨ht, hf⟩ | ⟨-, hf⟩
    · rw [if_pos (by simpa using hf), List.flatMap_cons, hc.completed id ht]
    · rw [if_neg (by simpa using hf), h.refused id hf, List.nil_append]

/-- What the socket has taken is the accepted messages, up to where it is. -/
theorem Orderly.wire (h : Orderly w) (hi : Inv w) :
    w.wire.map (·.2) <+: w.accepted.flatMap w.message ∧
      (w.outQueue_ = [] → w.wire.map (·.2) = w.accepted.flatMap w.message) := by
  have hc := hi.toCore
  have hflat : w.wire.map (·.2) = (List.range w.submitted.length).flatMap w.sent :=
    parts_flatten hc.wire_sorted hc.wire_lt
  have hempty : w.outQueue_ = [] → w.wire.map (·.2) = w.accepted.flatMap w.message := fun hq =>
    hflat.trans (h.flatMap_sent hc fun id hid => ⟨List.mem_range.mp hid, by simp [hq]⟩)
  refine ⟨?_, hempty⟩
  cases hq : w.outQueue_ with
  | nil => exact (hempty hq).symm ▸ List.prefix_refl _
  | cons e rest =>
    have hsorted := hc.queue_sorted
    rw [hq, List.map_cons, List.pairwise_cons] at hsorted
    have hge : ∀ f ∈ w.outQueue_, e.id ≤ f.id := fun f hf => by
      rcases List.mem_cons.mp (hq ▸ hf) with rfl | hf
      · exact Nat.le_refl _
      · exact Nat.le_of_lt (hsorted.1 _ (List.mem_map_of_mem hf))
    have hmem : e ∈ w.outQueue_ := hq ▸ List.mem_cons_self
    have hlt := hc.queue_lt e hmem
    obtain ⟨k, hk⟩ : ∃ k, w.submitted.length = e.id + (1 + k) := ⟨w.submitted.length - e.id - 1, by omega⟩
    have hrange : List.range w.submitted.length = List.range e.id ++ (e.id :: (List.range k).map (e.id + 1 + ·)) := by
      rw [hk, List.range_add, List.range_add, List.map_append, List.map_map]
      simp [Function.comp_def, Nat.add_assoc]
    have hlow : (List.range e.id).flatMap w.sent =
        ((List.range e.id).filter fun id => (id, false) ∉ w.called).flatMap w.message := by
      refine h.flatMap_sent hc fun id hid => ?_
      have hid := List.mem_range.mp hid
      refine ⟨by omega, fun f hf he => ?_⟩
      have := hge f hf
      omega
    -- of the messages behind the front nothing was sent
    have hhigh : ((List.range k).map (e.id + 1 + ·)).flatMap w.sent = [] := by
      refine List.flatMap_eq_nil_iff.mpr fun id hid => ?_
      obtain ⟨j, hj, rfl⟩ := List.mem_map.mp hid
      have hj := List.mem_range.mp hj
      exact part_eq_nil fun b hb he => by
        have := hc.wire_le b hb e hmem
        omega
    have hacc : (e.id, false) ∉ w.called := hc.not_called hmem
    rw [hflat, accepted, hrange, List.filter_append, List.filter_cons, if_pos (by simpa using hacc), List.flatMap_append,
      List.flatMap_append, List.flatMap_cons, List.flatMap_cons, hhigh, hlow, List.append_nil, ← hc.left e hmem]
    refine (List.prefix_append_right_inj _).mpr ?_
    rw [List.append_assoc]
    exact List.prefix_append _ _

theorem clearQueue_wire : (w.clearQueue cbs).wire = w.wire := by
  rw [clearQueue]
  generalize w.outQueue_ = l
  induction l generalizing w with
  | nil => rfl
  | cons e l ih =>
    rw [List.foldl_cons, ih]
    rfl

theorem write_wire (hw : w.write = some w') : w'.wire = w.wire := by
  unfold write at hw
  split at hw <;> cases hw
  rfl

theorem handleWrite_wire {error : Bool} {n : Nat} (hw : handleWrite cbs w error n = some w') : w'.wire = w.wire := by
  unfold handleWrite at hw
  split at hw
  · cases hw
  · split at hw
    · simp only at hw
      split at hw
      · cases hw
        exact clearQueue_wire
      · obtain ⟨w₁, hw₁, rfl⟩ := Option.map_eq_some_iff.mp hw
        split at hw₁
        · cases hw₁
          rfl
        · have := write_wire hw₁
          exact this
    · have := write_wire hw
      exact this

/-- The socket keeps what it has taken. -/
theorem step_wire (hs : Step cbs w ev w') : w.wire <+: w'.wire := by
  cases hs with
  | call c => exact List.prefix_refl _
  | @strand _ c cs hq hw =>
    cases c with
    | write m cb =>
      simp only [runCall, writeImpl] at hw
      split at hw
      · cases hw
        exact List.prefix_refl _
      · split at hw
        · exact (write_wire hw).symm ▸ List.prefix_refl _
        · cases hw
          exact List.prefix_refl _
    | shutdown cb =>
      cases hw
      exact List.prefix_refl _
  | complete ha hn hw =>
    rw [handleWrite_wire hw]
    exact List.prefix_append _ _

end BoostAsyncWriter

/-! ## The other end -/

namespace LengthFieldBasedFrameDecoder

variable {d : LengthFieldBasedFrameDecoder} {fs : List (List UInt8)} {l : List UInt8}

/-- The beginning of a stream of frames is the first of these frames, and the beginning of one. -/
theorem exists_take_of_prefix (hfs : ∀ f ∈ fs, d.WellFormed f) (hl : l <+: fs.flatten) :
    ∃ (k : Nat) (g : List UInt8), d.Unfinished g ∧ l = (fs.take k).flatten ++ g := by
  induction fs generalizing l with
  | nil => exact ⟨0, [], .inl rfl, List.prefix_nil.mp hl⟩
  | cons f fs ih =>
    rw [List.flatten_cons] at hl
    by_cases hlen : l.length < f.length
    · have hlf : l <+: f := List.prefix_of_prefix_length_le hl (List.prefix_append _ _) (Nat.le_of_lt hlen)
      refine ⟨0, l, .inr ⟨f, hfs f List.mem_cons_self, hlf, fun e => ?_⟩, rfl⟩
      rw [e] at hlen
      exact Nat.lt_irrefl _ hlen
    · obtain ⟨l', rfl⟩ : f <+: l := List.prefix_of_prefix_length_le (List.prefix_append _ _) hl (by omega)
      obtain ⟨k, g, hg, rfl⟩ := ih (fun f hf => hfs f (List.mem_cons_of_mem _ hf))
        ((List.prefix_append_right_inj f).mp hl)
      exact ⟨k + 1, g, hg, by rw [List.take_succ_cons, List.flatten_cons, List.append_assoc]⟩

end LengthFieldBasedFrameDecoder

open Connection in
/-- The frames of a stream are fired, and the rest waits. -/
theorem Connection.fired_of_stream {d : LengthFieldBasedFrameDecoder} {q : Pipeline} {fs : List (List UInt8)}
    {g : List UInt8} {w₀ w : Connection} {es : List Input} (hd : d.Supported) (hb : d.Becomes d)
    (hc : d.discarding 0 0 = d) (hq : q.Transparent) (h0 : Started d w₀) (h : Run (Net.Step q) w₀ es w)
    (hes : ∀ e ∈ es, e.OfStream) (hfs : ∀ f ∈ fs, d.WellFormed f) (hg : d.Unfinished g)
    (hS : stream es = fs.flatten ++ g) : w.fired.map (·.bytes) = fs.map d.stripped ∧ w.pending = g := by
  obtain ⟨hs₀, hfired, -⟩ := Session.started hb hc h0
  have hrun := hs₀.run_wellFormed hd hq (.nil 0) hes hfs hg (hS ▸ List.prefix_refl _) h
  obtain ⟨C, p, t, hs, D⟩ := hs₀.run hd hq hrun
  rw [List.nil_append] at hs D
  obtain ⟨hC, -, hframes, hexc⟩ := hs.wellFormed hd D.segment hfs hg hS
  refine ⟨?_, ?_⟩
  · rw [D.fired hexc, hfired, hframes]
    rfl
  · rw [hs.pending, hS, hC, List.drop_left]

/-- A writer, and the connection that reads what the writer's socket has taken. -/
structure Link (κ : Type) where
  writer : BoostAsyncWriter κ
  /-- How many bytes the connection has read. -/
  read : Nat
  receiver : Connection

namespace Link

variable {κ : Type} {cbs : Callbacks κ} {q : Pipeline} {d : LengthFieldBasedFrameDecoder}

/-- What happens at one end, or at the other. -/
inductive Event (κ : Type)
  | send (e : BoostAsyncWriter.Event κ)
  | receive (e : Input)

/-- No write completes with an error. -/
def Event.Clean : Event κ → Prop
  | .send e => e.Clean
  | .receive _ => True

/-- The bytes the socket has taken. -/
def sentBytes (t : Link κ) : List UInt8 := t.writer.wire.map (·.2)

variable (cbs q) in
/-- Either side takes a step. A read brings the next bytes of what the socket has taken. -/
inductive Step : Link κ → Event κ → Link κ → Prop
  | send {t : Link κ} {e : BoostAsyncWriter.Event κ} {w' : BoostAsyncWriter κ} :
      BoostAsyncWriter.Step cbs t.writer e w' → Step t (.send e) { t with writer := w' }
  | receive {t : Link κ} {e : Input} {r' : Connection} : e.OfStream → e.bytes <+: t.sentBytes.drop t.read →
      Net.Step q t.receiver e r' → Step t (.receive e) { t with read := t.read + e.bytes.length, receiver := r' }

/-- What the connection has read is the beginning of what the socket has taken. -/
structure Inv (q : Pipeline) (w₀ : Connection) (t : Link κ) : Prop where
  writer : t.writer.Inv
  orderly : t.writer.Orderly
  receiver : ∃ es, Run (Net.Step q) w₀ es t.receiver ∧ (∀ e ∈ es, e.OfStream) ∧ stream es = t.sentBytes.take t.read
  read_le : t.read ≤ t.sentBytes.length

variable {t t' : Link κ} {e : Event κ} {es : List (Event κ)} {w₀ : Connection}

theorem Inv.step (h : Inv q w₀ t) (hs : Step cbs q t e t') (he : e.Clean) : Inv q w₀ t' := by
  cases hs with
  | @send e w' hs =>
    obtain ⟨es, hrun, hes, hstream⟩ := h.receiver
    have hpre : t.sentBytes <+: w'.wire.map (·.2) := (BoostAsyncWriter.step_wire hs).map _
    refine ⟨BoostAsyncWriter.step_inv h.writer hs, BoostAsyncWriter.step_orderly h.orderly h.writer hs he,
      ⟨es, hrun, hes, ?_⟩, h.read_le.trans hpre.length_le⟩
    obtain ⟨r, hr⟩ := hpre
    show _ = (w'.wire.map (·.2)).take t.read
    rw [hstream, ← hr, List.take_append_of_le_length h.read_le]
  | @receive e r' hof hpre hs =>
    obtain ⟨es, hrun, hes, hstream⟩ := h.receiver
    have hle := hpre.length_le
    rw [List.length_drop] at hle
    have hr := h.read_le
    refine ⟨h.writer, h.orderly, ⟨es ++ [e], .snoc hrun hs, fun x hx => ?_, ?_⟩, by
      show t.read + e.bytes.length ≤ t.sentBytes.length
      omega⟩
    · rcases List.mem_append.mp hx with hx | hx
      · exact hes x hx
      · rw [List.mem_singleton.mp hx]
        exact hof
    · show _ = t.sentBytes.take (t.read + e.bytes.length)
      rw [stream_append, stream_singleton, hstream, List.take_add, ← List.prefix_iff_eq_take.mp hpre]

theorem run_inv (h : Run (Step cbs q) ⟨.init, 0, w₀⟩ es t) (hes : ∀ e ∈ es, e.Clean) : Inv q w₀ t :=
  h.inv_mem (P := Inv q w₀) ⟨BoostAsyncWriter.init_inv, BoostAsyncWriter.init_orderly, ⟨[], .nil, by simp, rfl⟩,
    Nat.zero_le _⟩ fun _ _ _ he hi hs => hi.step hs (hes _ he)

theorem wellFormed_messages {ids : List Nat} (hf : ∀ s ∈ t.writer.submitted, d.WellFormed s.message)
    (hids : ∀ id ∈ ids, id < t.writer.submitted.length) : ∀ f ∈ ids.map t.writer.message, d.WellFormed f := fun f hm => by
  obtain ⟨id, hid, rfl⟩ := List.mem_map.mp hm
  have hlt := hids id hid
  rw [BoostAsyncWriter.message, List.getElem?_eq_getElem hlt]
  exact hf _ (List.getElem_mem hlt)

/-- If each message is a frame and no write completes with an error, the handlers at the other end have got
the first of the messages that were not refused, whatever the order of the steps of both sides; what else was
read waits in the decoder; and they have got all of them once the writer has nothing left and all is read. -/
theorem link_delivers {a b c x y : Int} (ha : Buffer.UnpooledHeapCharBuf.IsInt a) (hb : Buffer.UnpooledHeapCharBuf.IsInt b)
    (hc : c = 1 ∨ c = 2 ∨ c = 4 ∨ c = 8) (hd : LengthFieldBasedFrameDecoder.new a b c x y = .ok d)
    (hq : q.Transparent) (h0 : Started d w₀) (h : Run (Step cbs q) ⟨.init, 0, w₀⟩ es t) (hes : ∀ e ∈ es, e.Clean)
    (hf : ∀ s ∈ t.writer.submitted, d.WellFormed s.message) :
    (∃ k, t.receiver.fired.map (·.bytes) = (t.writer.accepted.take k).map (fun id => d.stripped (t.writer.message id)) ∧
      t.sentBytes.take t.read = (t.writer.accepted.take k).flatMap t.writer.message ++ t.receiver.pending) ∧
    (t.writer.outQueue_ = [] → t.read = t.sentBytes.length →
      t.receiver.fired.map (·.bytes) = t.writer.accepted.map (fun id => d.stripped (t.writer.message id)) ∧
      t.receiver.pending = []) := by
  have hsup := LengthFieldBasedFrameDecoder.new_supported hd ha hb hc
  have hacc := LengthFieldBasedFrameDecoder.new_becomes hd ha hb
  have hdis := (LengthFieldBasedFrameDecoder.new_eq hd).2.2.2.2
  have hi := run_inv h hes
  obtain ⟨is, hrun, his, hstream⟩ := hi.receiver
  obtain ⟨hpre, hall⟩ := hi.orderly.wire hi.writer
  have hlt : ∀ id ∈ t.writer.accepted, id < t.writer.submitted.length := fun id hid =>
    List.mem_range.mp (List.mem_filter.mp hid).1
  have hframes := wellFormed_messages hf hlt
  refine ⟨?_, fun hq' hr => ?_⟩
  · have hl : t.sentBytes.take t.read <+: (t.writer.accepted.map t.writer.message).flatten := by
      rw [← List.flatMap_def]
      exact (List.take_prefix _ _).trans hpre
    obtain ⟨k, g, hg, hk⟩ := LengthFieldBasedFrameDecoder.exists_take_of_prefix hframes hl
    obtain ⟨hfired, hpending⟩ := Connection.fired_of_stream hsup hacc hdis hq h0 hrun his
      (fun f hf => hframes f (List.mem_of_mem_take hf)) hg (hstream.trans hk)
    refine ⟨k, ?_, ?_⟩
    · rw [hfired, ← List.map_take, List.map_map]
      rfl
    · rw [hk, hpending, ← List.map_take, List.flatMap_def]
  · have hS : stream is = (t.writer.accepted.map t.writer.message).flatten ++ [] := by
      rw [hstream, hr, List.take_length, List.append_nil, ← List.flatMap_def]
      exact hall hq'
    obtain ⟨hfired, hpending⟩ := Connection.fired_of_stream hsup hacc hdis hq h0 hrun his hframes (.inl rfl) hS
    exact ⟨by rw [hfired, List.map_map]; rfl, hpending⟩

/-- A frame that the socket takes in two parts, and the connection reads in two others. -/
theorem link_delivers_two_parts : ∃ (t : Link Unit) (w₀ : Connection), Started twoByteLengths w₀ ∧
    Run (Step ⟨fun _ _ => [], fun _ => []⟩ ⟨[], true, []⟩) ⟨.init, 0, w₀⟩
      [.receive .connect, .send (.call (.write [0, 1, 7] ())), .send .strand, .send (.complete false 2), .receive (.read [0]),
        .send (.complete false 1), .receive (.read [1, 7])] t ∧
    t.writer.accepted = [0] ∧ t.receiver.fired.map (·.bytes) = [[0, 1, 7]] ∧ t.receiver.pending = [] := by
  obtain ⟨w₀, w, h0, hrun, -⟩ := Connection.exists_run (d := twoByteLengths) (p := ⟨[], true, []⟩)
    [.connect, .read [0], .read [1, 7]] 5 (P := fun _ => True) (by decide +kernel)
  obtain ⟨w₁, h₁, hrun⟩ := hrun.of_cons
  obtain ⟨w₂, h₂, hrun⟩ := hrun.of_cons
  have h₃ := hrun.of_one
  have hr : Run (Step ⟨fun _ _ => [], fun _ => []⟩ ⟨[], true, []⟩) ⟨.init, 0, w₀⟩
      [.receive .connect, .send (.call (.write [0, 1, 7] ())), .send .strand, .send (.complete false 2), .receive (.read [0]),
        .send (.complete false 1), .receive (.read [1, 7])]
      ⟨⟨false, [], [], [], [⟨[0, 1, 7], false⟩], [(0, 0), (0, 1), (0, 7)], [(0, true)]⟩, 3, w⟩ :=
    .cons (.receive trivial (List.nil_prefix) h₁) (.cons (.send (.call _)) (.cons (.send (.strand rfl rfl))
      (.cons (.send (.complete (List.nil_append _).symm (show 2 ≤ 3 by decide) rfl)) (.cons (.receive trivial ⟨[1], rfl⟩ h₂)
        (.cons (.send (.complete (List.nil_append _).symm (Nat.le_refl 1) rfl)) (.one (.receive trivial ⟨[], rfl⟩ h₃)))))))
  have hw : twoByteLengths.WellFormed [0, 1, 7] :=
    ⟨by decide, by decide, ⟨by decide, by decide⟩, by decide, by decide, by decide⟩
  obtain ⟨-, hall⟩ := link_delivers (d := twoByteLengths) (a := 64) (b := 0) (c := 2) (x := 0) (y := 0) ⟨by decide, by decide⟩
    ⟨by decide, by decide⟩ (.inr (.inl rfl)) rfl ⟨rfl, by simp, by simp⟩ h0 hr
    (by simp [Event.Clean, BoostAsyncWriter.Event.Clean])
    (fun s hs => by rw [List.mem_singleton.mp hs]; exact hw)
  obtain ⟨hfired, hpending⟩ := hall rfl rfl
  exact ⟨_, w₀, h0, hr, rfl, hfired, hpending⟩

end Link

end Nio.Net
