import NioSocket.Lib.Tagged
import NioSocket.Lib.Trans

/-!
# The asynchronous writer

`BoostAsyncWriter`, with the strand its calls are posted to, the `async_write`s
it has outstanding and what the socket and its callers have seen of it. A
callback runs inside the step that invokes it; the calls it makes on the writer
are posted to the strand, and run as steps of their own.
-/

namespace Nio.Net

/-- A call on the writer, as posted to its strand. -/
inductive Call (κ : Type)
  | write (message : List UInt8) (resultCb : κ)
  | shutdown (shutdownCallback : κ)

/-- The calls on the writer that a callback makes when it is invoked. `write` and `shutdown`
post to the strand: what a callback writes is not submitted while the callback runs, but by
a later step of the strand. -/
structure Callbacks (κ : Type) where
  result : κ → Bool → List (Call κ)
  shutdown : κ → List (Call κ)

/-- An element of `outQueue_`: what is left to write of a message, and its
callback. Messages are numbered (`id`) in the order of their `writeImpl` steps. -/
structure Elem (κ : Type) where
  id : Nat
  first : List UInt8
  second : κ

/-- A message whose `writeImpl` has run, and whether the writer was shut down then. -/
structure Submission where
  message : List UInt8
  late : Bool

/-- A writer, with what was submitted, written and completed so far. -/
structure BoostAsyncWriter (κ : Type) where
  shutdown_ : Bool
  outQueue_ : List (Elem κ)
  /-- The calls posted to `strand_` that have not run. -/
  strand_ : List (Call κ)
  /-- The outstanding `async_write`s: the message each writes, and its buffer. -/
  asyncWrites : List (Nat × List UInt8)
  submitted : List Submission
  /-- The bytes the socket has taken, each with the message it belongs to. -/
  wire : List (Nat × UInt8)
  /-- The callbacks invoked. -/
  called : List (Nat × Bool)

namespace BoostAsyncWriter

variable {κ : Type} (cbs : Callbacks κ)

/-- A writer that has done nothing. -/
def init : BoostAsyncWriter κ := ⟨false, [], [], [], [], [], []⟩

/-- Invoking the callback of message `id`. -/
def resultCb (w : BoostAsyncWriter κ) (id : Nat) (cb : κ) (ok : Bool) : BoostAsyncWriter κ :=
  { w with called := w.called ++ [(id, ok)], strand_ := w.strand_ ++ cbs.result cb ok }

/-- `write()`; `none` where the source reads the front of an empty queue. -/
def write (w : BoostAsyncWriter κ) : Option (BoostAsyncWriter κ) :=
  match w.outQueue_ with
  | [] => none
  | e :: _ => some { w with asyncWrites := w.asyncWrites ++ [(e.id, e.first)] }

/-- `writeImpl(message, callback)`, on the strand. -/
def writeImpl (w : BoostAsyncWriter κ) (message : List UInt8) (cb : κ) :
    Option (BoostAsyncWriter κ) :=
  let id := w.submitted.length
  let w : BoostAsyncWriter κ := { w with submitted := w.submitted ++ [⟨message, w.shutdown_⟩] }
  if w.shutdown_ then some (w.resultCb cbs id cb false)
  else
    let w : BoostAsyncWriter κ := { w with outQueue_ := w.outQueue_ ++ [⟨id, message, cb⟩] }
    if w.outQueue_.length = 1 then w.write else some w

/-- `handleShutdown(callback)`, on the strand. -/
def handleShutdown (w : BoostAsyncWriter κ) (cb : κ) : BoostAsyncWriter κ :=
  { w with shutdown_ := true, strand_ := w.strand_ ++ cbs.shutdown cb }

/-- `clearQueue()`: the queue's callbacks, front first, each popped after its callback. -/
def clearQueue (w : BoostAsyncWriter κ) : BoostAsyncWriter κ :=
  w.outQueue_.foldl (fun w e => { w.resultCb cbs e.id e.second false with
    outQueue_ := w.outQueue_.tail }) w

/-- `handleWrite(error, bytesTransferred)`, on the strand. -/
def handleWrite (w : BoostAsyncWriter κ) (error : Bool) (bytesTransferred : Nat) :
    Option (BoostAsyncWriter κ) :=
  match w.outQueue_ with
  | [] => none
  | e :: rest =>
    if error || bytesTransferred ≥ e.first.length then
      let w := { w with outQueue_ := rest }
      if w.shutdown_ then some ((w.resultCb cbs e.id e.second (!error)).clearQueue cbs)
      else
        (if w.outQueue_.isEmpty then some w else w.write).map
          (·.resultCb cbs e.id e.second (!error))
    else
      write { w with outQueue_ := { e with first := e.first.drop bytesTransferred } :: rest }

/-- The next call of the strand. -/
def runCall (w : BoostAsyncWriter κ) : Call κ → Option (BoostAsyncWriter κ)
  | .write message cb => w.writeImpl cbs message cb
  | .shutdown cb => some (w.handleShutdown cbs cb)

/-- What happens to a writer. -/
inductive Event (κ : Type)
  | call (c : Call κ)
  | strand
  | complete (error : Bool) (bytesTransferred : Nat)

/-- A step: a call from outside is posted, the strand runs its next call, or
the socket completes an `async_write`, of whose buffer it has taken a prefix. -/
inductive Step : BoostAsyncWriter κ → Event κ → BoostAsyncWriter κ → Prop
  | call {w : BoostAsyncWriter κ} (c : Call κ) :
      Step w (.call c) { w with strand_ := w.strand_ ++ [c] }
  | strand {w w' : BoostAsyncWriter κ} {c : Call κ} {cs : List (Call κ)} :
      w.strand_ = c :: cs → runCall cbs { w with strand_ := cs } c = some w' → Step w .strand w'
  | complete {w w' : BoostAsyncWriter κ} {l r : List (Nat × List UInt8)} {id : Nat}
      {buf : List UInt8} {error : Bool} {n : Nat} :
      w.asyncWrites = l ++ (id, buf) :: r → n ≤ buf.length →
      handleWrite cbs { w with asyncWrites := l ++ r,
                               wire := w.wire ++ (buf.take n).map (id, ·) } error n = some w' →
      Step w (.complete error n) w'

/-- The bytes the socket has taken of message `id`. -/
def sent (w : BoostAsyncWriter κ) (id : Nat) : List UInt8 := part w.wire id

/-- The message `id`. -/
def message (w : BoostAsyncWriter κ) (id : Nat) : List UInt8 := (w.submitted[id]?.map (·.message)).getD []

/-- The number of times the callback of message `id` was invoked. -/
def calls (w : BoostAsyncWriter κ) (id : Nat) : Nat := (w.called.map (·.1)).count id

/-- The messages completed without error. -/
def Completed (w : BoostAsyncWriter κ) (id : Nat) : Prop := (id, true) ∈ w.called

instance (w : BoostAsyncWriter κ) : DecidablePred w.Completed :=
  fun id => inferInstanceAs (Decidable ((id, true) ∈ w.called))

/-! ## The invariant -/

/-- What holds of a writer also between the statements of a step. -/
structure Core (w : BoostAsyncWriter κ) : Prop where
  queue_sorted : (w.outQueue_.map (·.id)).Pairwise (· < ·)
  queue_lt : ∀ e ∈ w.outQueue_, e.id < w.submitted.length
  wire_sorted : (w.wire.map (·.1)).Pairwise (· ≤ ·)
  wire_lt : ∀ b ∈ w.wire, b.1 < w.submitted.length
  wire_le : ∀ b ∈ w.wire, ∀ e ∈ w.outQueue_, b.1 ≤ e.id
  left : ∀ e ∈ w.outQueue_, w.sent e.id ++ e.first = w.message e.id
  completed : ∀ id, w.Completed id → w.sent id = w.message id
  calls_lt : ∀ c ∈ w.called, c.1 < w.submitted.length
  once : ∀ id < w.submitted.length, w.calls id + (w.outQueue_.map (·.id)).count id = 1
  late : ∀ id s, w.submitted[id]? = some s → s.late = true → (id, false) ∈ w.called ∧ w.sent id = []

/-- A writer between two steps: its front element is what is being written. -/
structure Inv (w : BoostAsyncWriter κ) : Prop extends Core w where
  writes : w.asyncWrites = (w.outQueue_.head?.map fun e => (e.id, e.first)).toList

theorem init_inv : Inv (init : BoostAsyncWriter κ) := by
  constructor <;> [constructor; rfl] <;> simp [init, Completed]

@[simp] theorem resultCb_outQueue (w : BoostAsyncWriter κ) (id : Nat) (cb : κ) (ok : Bool) :
    (w.resultCb cbs id cb ok).outQueue_ = w.outQueue_ := rfl
@[simp] theorem resultCb_asyncWrites (w : BoostAsyncWriter κ) (id : Nat) (cb : κ) (ok : Bool) :
    (w.resultCb cbs id cb ok).asyncWrites = w.asyncWrites := rfl
@[simp] theorem resultCb_submitted (w : BoostAsyncWriter κ) (id : Nat) (cb : κ) (ok : Bool) :
    (w.resultCb cbs id cb ok).submitted = w.submitted := rfl
@[simp] theorem resultCb_wire (w : BoostAsyncWriter κ) (id : Nat) (cb : κ) (ok : Bool) :
    (w.resultCb cbs id cb ok).wire = w.wire := rfl
@[simp] theorem resultCb_called (w : BoostAsyncWriter κ) (id : Nat) (cb : κ) (ok : Bool) :
    (w.resultCb cbs id cb ok).called = w.called ++ [(id, ok)] := rfl

variable {cbs} {w w' : BoostAsyncWriter κ}

theorem sent_congr (h : w'.wire = w.wire) (id : Nat) : w'.sent id = w.sent id := by
  simp only [sent, h]

theorem message_congr (h : w'.submitted = w.submitted) (id : Nat) : w'.message id = w.message id := by
  simp only [message, h]

theorem Core.congr (h : Core w) (hq : w'.outQueue_ = w.outQueue_)
    (hs : w'.submitted = w.submitted) (hw : w'.wire = w.wire) (hc : w'.called = w.called) :
    Core w' := by
  cases w; cases w'
  simp only at hq hs hw hc
  subst hq hs hw hc
  exact ⟨h.1, h.2, h.3, h.4, h.5, h.6, h.7, h.8, h.9, h.10⟩

theorem Inv.congr (h : Inv w) (hq : w'.outQueue_ = w.outQueue_) (hs : w'.submitted = w.submitted)
    (hw : w'.wire = w.wire) (hc : w'.called = w.called) (ha : w'.asyncWrites = w.asyncWrites) :
    Inv w' :=
  ⟨h.toCore.congr hq hs hw hc, by rw [ha, hq]; exact h.writes⟩

/-- Popping the front element and invoking its callback. -/
theorem Core.settle (h : Core w) {e : Elem κ} {rest : List (Elem κ)} (ok : Bool)
    (hq : w.outQueue_ = e :: rest) (hok : ok = true → w.sent e.id = w.message e.id)
    (hq' : w'.outQueue_ = rest) (hs : w'.submitted = w.submitted) (hw : w'.wire = w.wire)
    (hc : w'.called = w.called ++ [(e.id, ok)]) : Core w' := by
  have hmem : e ∈ w.outQueue_ := hq ▸ List.mem_cons_self
  have hsub : ∀ e' ∈ w'.outQueue_, e' ∈ w.outQueue_ := fun e' he => by
    rw [hq]; exact List.mem_cons_of_mem _ (hq' ▸ he)
  have hsorted := h.queue_sorted
  rw [hq, List.map_cons, List.pairwise_cons] at hsorted
  constructor
  · rw [hq']; exact hsorted.2
  · rw [hs]; exact fun e' he => h.queue_lt e' (hsub e' he)
  · rw [hw]; exact h.wire_sorted
  · rw [hw, hs]; exact h.wire_lt
  · rw [hw]; exact fun b hb e' he => h.wire_le b hb e' (hsub e' he)
  · intro e' he
    rw [sent_congr hw, message_congr hs]; exact h.left e' (hsub e' he)
  · intro id hid
    rw [sent_congr hw, message_congr hs]
    simp only [Completed, hc, List.mem_append, List.mem_singleton, Prod.mk.injEq] at hid
    rcases hid with hid | ⟨rfl, hid⟩
    · exact h.completed id hid
    · exact hok hid.symm
  · intro c hcm
    rw [hs]
    simp only [hc, List.mem_append, List.mem_singleton] at hcm
    rcases hcm with hcm | rfl
    · exact h.calls_lt c hcm
    · exact h.queue_lt e hmem
  · intro id hid
    rw [hs] at hid
    have := h.once id hid
    simp only [calls, hq, hq', hc, List.map_append, List.map_cons, List.map_nil,
      List.count_append, List.count_cons, List.count_nil] at this ⊢
    omega
  · intro id s hid hl
    rw [sent_congr hw, hc]
    obtain ⟨h1, h2⟩ := h.late id s (hs ▸ hid) hl
    exact ⟨List.mem_append_left _ h1, h2⟩

theorem clearQueue_core (h : Core w) :
    Core (w.clearQueue cbs) ∧ (w.clearQueue cbs).outQueue_ = [] ∧
      (w.clearQueue cbs).asyncWrites = w.asyncWrites := by
  rw [clearQueue]
  generalize hl : w.outQueue_ = l
  induction l generalizing w with
  | nil => exact ⟨h, hl, rfl⟩
  | cons e l ih =>
    rw [List.foldl_cons]
    exact ih (h.settle false hl nofun (by rw [hl]; rfl) rfl rfl rfl) (by rw [hl]; rfl)

/-- `write()` starts writing the front element. -/
theorem write_inv (h : Core w) (hn : w.asyncWrites = []) (hw : w.write = some w') : Inv w' := by
  unfold write at hw
  split at hw
  · cases hw
  · rename_i e rest hq
    cases hw
    exact ⟨h.congr rfl rfl rfl rfl, by simp [hn, hq]⟩

/-! ## Submitting a message -/

theorem Core.sent_fresh (h : Core w) : w.sent w.submitted.length = [] :=
  part_eq_nil fun b hb => Nat.ne_of_lt (h.wire_lt b hb)

theorem Core.calls_fresh (h : Core w) : w.calls w.submitted.length = 0 :=
  List.count_eq_zero.mpr fun hm => by
    obtain ⟨c, hc, e⟩ := List.mem_map.mp hm
    have := h.calls_lt c hc
    omega

theorem Core.queue_fresh (h : Core w) : (w.outQueue_.map (·.id)).count w.submitted.length = 0 :=
  List.count_eq_zero.mpr fun hm => by
    obtain ⟨e, he, eq⟩ := List.mem_map.mp hm
    have := h.queue_lt e he
    omega

/-- A message submitted after the shutdown is called back at once; one
submitted before it joins the queue. -/
theorem Core.submit (h : Core w) (m : List UInt8) (cb : κ) (late : Bool)
    (hq : w'.outQueue_ = w.outQueue_ ++ if late then [] else [⟨w.submitted.length, m, cb⟩])
    (hs : w'.submitted = w.submitted ++ [⟨m, late⟩]) (hw : w'.wire = w.wire)
    (hc : w'.called = w.called ++ if late then [(w.submitted.length, false)] else []) : Core w' := by
  have hlen : w'.submitted.length = w.submitted.length + 1 := by rw [hs]; simp
  have hmsg : ∀ id < w.submitted.length, w'.message id = w.message id := fun id hid => by
    simp only [message, hs, List.getElem?_append_left hid]
  have hnew : w'.message w.submitted.length = m := by simp [message, hs]
  have hmem : ∀ e ∈ w'.outQueue_, e ∈ w.outQueue_ ∨ e = ⟨w.submitted.length, m, cb⟩ := by
    intro e he
    rw [hq, List.mem_append] at he
    cases late <;> simp at he ⊢ <;> tauto
  have hcalled : ∀ c ∈ w'.called, c ∈ w.called ∨ c = (w.submitted.length, false) := by
    intro c he
    rw [hc, List.mem_append] at he
    cases late <;> simp at he ⊢ <;> tauto
  constructor
  · rw [hq, List.map_append, List.pairwise_append]
    refine ⟨h.queue_sorted, by cases late <;> simp, fun a ha b hb => ?_⟩
    obtain ⟨e, he, rfl⟩ := List.mem_map.mp ha
    have := h.queue_lt e he
    cases late <;> simp at hb; omega
  · intro e he
    rw [hlen]
    rcases hmem e he with he | rfl
    · exact Nat.lt_succ_of_lt (h.queue_lt e he)
    · exact Nat.lt_succ_self _
  · rw [hw]; exact h.wire_sorted
  · rw [hw, hlen]; exact fun b hb => Nat.lt_succ_of_lt (h.wire_lt b hb)
  · intro b hb e he
    rw [hw] at hb
    rcases hmem e he with he | rfl
    · exact h.wire_le b hb e he
    · exact Nat.le_of_lt (h.wire_lt b hb)
  · intro e he
    rw [sent_congr hw]
    rcases hmem e he with he | rfl
    · rw [hmsg _ (h.queue_lt e he)]; exact h.left e he
    · rw [hnew, h.sent_fresh]; rfl
  · intro id hid
    have hid' : w.Completed id := (hcalled _ hid).resolve_right (by simp)
    rw [sent_congr hw, hmsg _ (h.calls_lt _ hid')]
    exact h.completed id hid'
  · intro c hcm
    rw [hlen]
    rcases hcalled c hcm with hcm | rfl
    · exact Nat.lt_succ_of_lt (h.calls_lt c hcm)
    · exact Nat.lt_succ_self _
  · intro id hid
    rw [hlen] at hid
    simp only [calls, hq, hc, List.map_append, List.count_append]
    by_cases e : id = w.submitted.length
    · have c0 := h.calls_fresh
      have q0 := h.queue_fresh
      rw [calls] at c0
      subst e
      cases late <;> simp [c0, q0]
    · have := h.once id (by omega)
      rw [calls] at this
      cases late <;> simpa [List.count_cons, Ne.symm e] using this
  · intro id s hid hl
    rw [sent_congr hw, hc]
    rcases Nat.lt_or_ge id w.submitted.length with hlt | hge
    · rw [hs, List.getElem?_append_left hlt] at hid
      obtain ⟨h1, h2⟩ := h.late id s hid hl
      exact ⟨List.mem_append_left _ h1, h2⟩
    · have hid' : id < w'.submitted.length := (List.getElem?_eq_some_iff.mp hid).1
      obtain rfl : id = w.submitted.length := by omega
      simp only [hs, List.getElem?_concat_length, Option.some.injEq] at hid
      subst hid
      exact ⟨List.mem_append_right _ (by simp only at hl; simp [hl]), h.sent_fresh⟩

theorem writeImpl_inv (h : Inv w) (m : List UInt8) (cb : κ) (hw : w.writeImpl cbs m cb = some w') :
    Inv w' := by
  simp only [writeImpl, resultCb] at hw
  split at hw
  · rename_i hsh
    cases hw
    exact ⟨h.toCore.submit m cb true (by simp) (by simp [hsh]) rfl rfl, h.writes⟩
  · rename_i hsh
    have hcore : Core { w with
        submitted := w.submitted ++ [⟨m, w.shutdown_⟩]
        outQueue_ := w.outQueue_ ++ [⟨w.submitted.length, m, cb⟩] } :=
      h.toCore.submit m cb false rfl (by simp [hsh]) rfl (by simp)
    split at hw
    · rename_i hone
      have hnil : w.outQueue_ = [] := by
        simpa using hone
      exact write_inv hcore (by simp [h.writes, hnil]) hw
    · rename_i hone
      cases hw
      refine ⟨hcore, h.writes.trans ?_⟩
      cases hq : w.outQueue_ with
      | nil => simp [hq] at hone
      | cons e rest => rfl

/-! ## A completion -/

/-- A message is in the queue until its callback is invoked. -/
theorem Core.not_called (h : Core w) {e : Elem κ} (he : e ∈ w.outQueue_) {ok : Bool} :
    (e.id, ok) ∉ w.called := fun hc => by
  have h1 := h.once e.id (h.queue_lt e he)
  have h2 : 0 < w.calls e.id := List.count_pos_iff.mpr (List.mem_map_of_mem hc)
  have h3 : 0 < (w.outQueue_.map (·.id)).count e.id :=
    List.count_pos_iff.mpr (List.mem_map_of_mem he)
  omega

/-- The socket takes the first `n` of the front element's bytes. -/
theorem Core.take (h : Core w) {e : Elem κ} {rest : List (Elem κ)} (n : Nat)
    (hq : w.outQueue_ = e :: rest)
    (hq' : w'.outQueue_ = { e with first := e.first.drop n } :: rest)
    (hw : w'.wire = w.wire ++ (e.first.take n).map (e.id, ·))
    (hs : w'.submitted = w.submitted) (hc : w'.called = w.called) : Core w' := by
  have hmem : e ∈ w.outQueue_ := hq ▸ List.mem_cons_self
  have hids : w'.outQueue_.map (·.id) = w.outQueue_.map (·.id) := by rw [hq', hq]; rfl
  have hold : ∀ e' ∈ w'.outQueue_, ∃ e₀ ∈ w.outQueue_, e₀.id = e'.id := fun e' he => by
    have := List.mem_map_of_mem (f := (·.id)) he
    rw [hids] at this
    exact List.mem_map.mp this
  have hsorted := h.queue_sorted
  rw [hq, List.map_cons, List.pairwise_cons] at hsorted
  have hle : ∀ e' ∈ w.outQueue_, e.id ≤ e'.id := fun e' he => by
    rcases List.mem_cons.mp (hq ▸ he) with rfl | he
    · exact Nat.le_refl _
    · exact Nat.le_of_lt (hsorted.1 _ (List.mem_map_of_mem he))
  have hwire : ∀ b ∈ w'.wire, b ∈ w.wire ∨ b.1 = e.id := fun b hb => by
    rw [hw, List.mem_append, List.mem_map] at hb
    rcases hb with hb | ⟨_, -, rfl⟩
    · exact .inl hb
    · exact .inr rfl
  have hself : w'.sent e.id = w.sent e.id ++ e.first.take n := by
    simp only [sent, hw, part_append, part_map_self]
  have hother : ∀ id, id ≠ e.id → w'.sent id = w.sent id := fun id hid => by
    simp only [sent, hw, part_append, part_map_of_ne _ hid, List.append_nil]
  constructor
  · rw [hids]; exact h.queue_sorted
  · intro e' he
    obtain ⟨e₀, he₀, hid⟩ := hold e' he
    rw [hs, ← hid]; exact h.queue_lt e₀ he₀
  · rw [hw, List.map_append, List.pairwise_append]
    refine ⟨h.wire_sorted, List.pairwise_map.mpr (List.pairwise_map.mpr
      (List.pairwise_of_forall fun _ _ => Nat.le_refl _)), fun a ha b hb => ?_⟩
    obtain ⟨x, hx, rfl⟩ := List.mem_map.mp ha
    simp only [List.map_map, List.mem_map, Function.comp_apply] at hb
    obtain ⟨_, -, rfl⟩ := hb
    exact h.wire_le x hx e hmem
  · intro b hb
    rw [hs]
    rcases hwire b hb with hb | hb
    · exact h.wire_lt b hb
    · rw [hb]; exact h.queue_lt e hmem
  · intro b hb e' he
    obtain ⟨e₀, he₀, hid⟩ := hold e' he
    rw [← hid]
    rcases hwire b hb with hb | hb
    · exact h.wire_le b hb e₀ he₀
    · rw [hb]; exact hle e₀ he₀
  · intro e' he
    rw [message_congr hs]
    rcases List.mem_cons.mp (hq' ▸ he) with rfl | he
    · rw [hself, List.append_assoc, List.take_append_drop]
      exact h.left e hmem
    · rw [hother _ (Nat.ne_of_gt (hsorted.1 _ (List.mem_map_of_mem he)))]
      exact h.left e' (hq ▸ List.mem_cons_of_mem _ he)
  · intro id hid
    rw [Completed, hc] at hid
    rw [hother _ fun e' => h.not_called hmem (e' ▸ hid), message_congr hs]
    exact h.completed id hid
  · rw [hc, hs]; exact h.calls_lt
  · simp only [calls, hc, hids, hs]; exact h.once
  · intro id s hid hl
    rw [hs] at hid
    obtain ⟨h1, h2⟩ := h.late id s hid hl
    rw [hother _ fun e' => h.not_called hmem (e' ▸ h1), hc]
    exact ⟨h1, h2⟩

theorem handleWrite_inv (h : Inv w) {l r : List (Nat × List UInt8)} {id n : Nat} {buf : List UInt8}
    {error : Bool} (ha : w.asyncWrites = l ++ (id, buf) :: r) (hn : n ≤ buf.length)
    (hw : handleWrite cbs { w with asyncWrites := l ++ r,
                                   wire := w.wire ++ (buf.take n).map (id, ·) } error n = some w') :
    Inv w' := by
  have hwr := h.writes
  cases hq : w.outQueue_ with
  | nil => simp [hq, ha] at hwr
  | cons e rest =>
    -- the completed write is the front element's, and the only one
    obtain ⟨rfl, ⟨rfl, rfl⟩, rfl⟩ : l = [] ∧ (id = e.id ∧ buf = e.first) ∧ r = [] := by
      rw [ha, hq] at hwr
      simpa [List.append_eq_singleton_iff] using hwr
    simp only [handleWrite, hq, List.nil_append] at hw
    have htake : Core { w with
        asyncWrites := []
        outQueue_ := { e with first := e.first.drop n } :: rest
        wire := w.wire ++ (e.first.take n).map (e.id, ·) } :=
      h.toCore.take n hq rfl rfl rfl rfl
    split at hw
    · rename_i hdone
      have hok : (!error) = true → sent _ e.id = message _ e.id := fun hne => by
        have hlen : e.first.length ≤ n := by
          simp only [Bool.not_eq_true'] at hne
          simpa [hne] using hdone
        have := htake.left _ List.mem_cons_self
        rwa [List.drop_eq_nil_of_le hlen, List.append_nil] at this
      have hset : Core (resultCb cbs { w with
          asyncWrites := []
          outQueue_ := rest
          wire := w.wire ++ (e.first.take n).map (e.id, ·) } e.id e.second (!error)) :=
        htake.settle (!error) rfl hok rfl rfl rfl rfl
      split at hw
      · cases hw
        obtain ⟨hc, hnil, hno⟩ := clearQueue_core hset
        exact ⟨hc, by rw [hnil, hno]; rfl⟩
      · split at hw
        · rename_i hemp
          cases hw
          have hnil : rest = [] := List.isEmpty_iff.mp hemp
          exact ⟨hset, by simp [hnil]⟩
        · cases rest with
          | nil => simp at *
          | cons e' rest =>
            simp only [write, Option.map_some, Option.some.injEq] at hw
            subst hw
            exact ⟨hset.congr rfl rfl rfl rfl, rfl⟩
    · exact write_inv htake rfl hw

theorem step_inv {ev : Event κ} (h : Inv w) (hs : Step cbs w ev w') : Inv w' := by
  cases hs with
  | call c => exact h.congr rfl rfl rfl rfl rfl
  | @strand _ c cs hq hw =>
    have h' : Inv { w with strand_ := cs } := h.congr rfl rfl rfl rfl rfl
    cases c with
    | write m cb => exact writeImpl_inv h' m cb hw
    | shutdown cb =>
      cases hw
      exact h.congr rfl rfl rfl rfl rfl
  | complete ha hn hw => exact handleWrite_inv h ha hn hw

theorem run_inv {evs : List (Event κ)} (h : Run (Step cbs) init evs w) : Inv w :=
  h.inv init_inv fun _ _ _ hi hs => step_inv hi hs

theorem write_runs (h : w.outQueue_ ≠ []) : ∃ w', w.write = some w' := by
  cases hq : w.outQueue_ with
  | nil => exact absurd hq h
  | cons e rest => exact ⟨_, by rw [write, hq]⟩

theorem write_frame (hw : w.write = some w') :
    w'.shutdown_ = w.shutdown_ ∧ w'.submitted = w.submitted ∧ w'.called = w.called := by
  unfold write at hw
  split at hw <;> cases hw
  exact ⟨rfl, rfl, rfl⟩

theorem clearQueue_frame : (w.clearQueue cbs).shutdown_ = w.shutdown_ ∧
    (w.clearQueue cbs).submitted = w.submitted ∧ w.called ⊆ (w.clearQueue cbs).called := by
  rw [clearQueue]
  generalize w.outQueue_ = l
  induction l generalizing w with
  | nil => exact ⟨rfl, rfl, List.Subset.refl _⟩
  | cons e l ih =>
    rw [List.foldl_cons]
    obtain ⟨h1, h2, h3⟩ := ih (w := { w.resultCb cbs e.id e.second false with outQueue_ := w.outQueue_.tail })
    exact ⟨h1, h2, fun c hc => h3 (List.mem_append_left _ hc)⟩

/-- The writer never reads the front of an empty queue: the strand can always
run its next call, and a message is submitted by it. -/
theorem strand_runs {c : Call κ} {cs : List (Call κ)} (hq : w.strand_ = c :: cs) :
    ∃ w', Step cbs w .strand w' ∧
      ∀ m cb, c = .write m cb → w'.submitted = w.submitted ++ [⟨m, w.shutdown_⟩] := by
  cases c with
  | shutdown cb => exact ⟨_, .strand hq rfl, nofun⟩
  | write m cb =>
    have : ∃ w', writeImpl cbs { w with strand_ := cs } m cb = some w' ∧
        w'.submitted = w.submitted ++ [⟨m, w.shutdown_⟩] := by
      simp only [writeImpl]
      split
      · exact ⟨_, rfl, rfl⟩
      · split
        · obtain ⟨w', hw⟩ := write_runs (w := { w with
            submitted := w.submitted ++ [⟨m, w.shutdown_⟩]
            strand_ := cs
            outQueue_ := w.outQueue_ ++ [⟨w.submitted.length, m, cb⟩] }) (by simp)
          exact ⟨w', hw, (write_frame hw).2.1⟩
        · exact ⟨_, rfl, rfl⟩
    obtain ⟨w', hw, hs⟩ := this
    refine ⟨w', .strand hq hw, fun m' cb' e => ?_⟩
    cases e
    exact hs

/-- Nor does a completion, whatever it reports. Once the socket has taken what was left of a
message, without an error, its callback has been invoked with `true`. -/
theorem complete_runs (h : Inv w) {l r : List (Nat × List UInt8)} {id n : Nat} {buf : List UInt8}
    (ha : w.asyncWrites = l ++ (id, buf) :: r) (hn : n ≤ buf.length) (error : Bool) :
    ∃ w', Step cbs w (.complete error n) w' ∧
      (error = true ∨ n = buf.length → (id, !error) ∈ w'.called) := by
  have hwr := h.writes
  cases hq : w.outQueue_ with
  | nil => simp [hq, ha] at hwr
  | cons e rest =>
    -- the one `async_write` there is writes the front element
    obtain ⟨-, hid⟩ : l = [] ∧ (id, buf) = (e.id, e.first) := by
      rw [ha, hq] at hwr
      cases l with
      | nil => exact ⟨rfl, (List.cons.inj hwr).1⟩
      | cons a l => simp at hwr
    obtain ⟨rfl, rfl⟩ := Prod.mk.inj hid
    have : ∃ w', handleWrite cbs { w with
        asyncWrites := l ++ r
        wire := w.wire ++ (e.first.take n).map (e.id, ·) } error n = some w' ∧
        (error = true ∨ n = e.first.length → (e.id, !error) ∈ w'.called) := by
      simp only [handleWrite, hq]
      split
      · split
        · exact ⟨_, rfl, fun _ => clearQueue_frame.2.2 (by simp)⟩
        · cases rest <;> exact ⟨_, rfl, fun _ => by simp⟩
      · rename_i hc
        simp only [Bool.or_eq_true, decide_eq_true_eq, not_or] at hc
        exact ⟨_, rfl, fun he => absurd he (by rintro (he | he); exacts [hc.1 he, hc.2 (by omega)])⟩
    obtain ⟨w', hw, hc⟩ := this
    exact ⟨w', .complete ha hn hw, hc⟩

/-! ## After the shutdown -/

/-- `w` is shut down, and so it was when the messages from `n` on were submitted. -/
def LateFrom (n : Nat) (w : BoostAsyncWriter κ) : Prop :=
  w.shutdown_ = true ∧ ∀ id s, n ≤ id → w.submitted[id]? = some s → s.late = true

theorem LateFrom.congr {n : Nat} (h : LateFrom n w) (hsh : w'.shutdown_ = w.shutdown_)
    (hs : w'.submitted = w.submitted) : LateFrom n w' := by
  rw [LateFrom, hsh, hs]; exact h

theorem handleWrite_frame {error : Bool} {n : Nat} (hw : handleWrite cbs w error n = some w') :
    w'.shutdown_ = w.shutdown_ ∧ w'.submitted = w.submitted := by
  unfold handleWrite at hw
  split at hw
  · cases hw
  · split at hw
    · simp only at hw
      split at hw
      · cases hw; exact ⟨clearQueue_frame.1, clearQueue_frame.2.1⟩
      · obtain ⟨w₁, hw₁, rfl⟩ := Option.map_eq_some_iff.mp hw
        split at hw₁
        · cases hw₁; exact ⟨rfl, rfl⟩
        · have := write_frame hw₁; exact ⟨this.1, this.2.1⟩
    · have := write_frame hw; exact ⟨this.1, this.2.1⟩

theorem step_lateFrom {n : Nat} {ev : Event κ} (h : LateFrom n w) (hs : Step cbs w ev w') :
    LateFrom n w' := by
  cases hs with
  | call c => exact h.congr rfl rfl
  | @strand _ c cs hq hw =>
    cases c with
    | shutdown cb => cases hw; exact ⟨rfl, h.2⟩
    | write m cb =>
      simp only [runCall, writeImpl, h.1, if_true] at hw
      cases hw
      refine ⟨rfl, fun id s hid hm => ?_⟩
      simp only [resultCb_submitted] at hm
      rcases Nat.lt_trichotomy id w.submitted.length with hlt | rfl | hgt
      · rw [List.getElem?_append_left hlt] at hm; exact h.2 id s hid hm
      · simp only [List.getElem?_concat_length, Option.some.injEq] at hm
        exact hm ▸ rfl
      · rw [List.getElem?_eq_none (by simp; omega)] at hm; cases hm
  | complete ha hn hw =>
    obtain ⟨h1, h2⟩ := handleWrite_frame hw
    exact h.congr h1 h2

/-! ## What the writer guarantees -/

theorem Inv.calls_le (h : Inv w) (id : Nat) : w.calls id ≤ 1 := by
  rcases Nat.lt_or_ge id w.submitted.length with hlt | hge
  · have := h.once id hlt; omega
  · have : w.calls id = 0 := List.count_eq_zero.mpr fun hm => by
      obtain ⟨c, hc, e⟩ := List.mem_map.mp hm
      have := h.calls_lt c hc
      omega
    omega

/-- The bytes the socket has of the completed messages are these messages, in
the order of their submission. -/
theorem Inv.completed_bytes (h : Inv w) :
    (w.wire.filter fun b => w.Completed b.1).map (·.2) =
      ((List.range w.submitted.length).filter w.Completed).flatMap w.message := by
  rw [parts_flatten (h.wire_sorted.sublist (List.filter_sublist.map _))
    fun b hb => h.wire_lt b (List.mem_filter.mp hb).1]
  induction List.range w.submitted.length with
  | nil => rfl
  | cons id ids ih =>
    rw [List.flatMap_cons, List.filter_cons, ih, part_filter]
    by_cases hid : w.Completed id
    · have := h.completed id hid
      rw [sent] at this
      simp [hid, this]
    · simp [hid]

/-- In every run: the queue is non-empty exactly when one `async_write` is
outstanding, and two never are; an outstanding one writes what is left of its
message; the bytes on the wire are not interleaved, and those of the completed
messages are these messages in order; every callback is invoked at most once, and
exactly once when no write is outstanding; a message submitted after a shutdown step
is refused without reaching the socket; and the strand can always run its next call,
and a completion be handled, which invokes the callback of a message that is written
or that failed. -/
theorem writer_correct {evs : List (Event κ)} (h : Run (Step cbs) init evs w) :
    (w.outQueue_ ≠ [] ↔ w.asyncWrites.length = 1) ∧ w.asyncWrites.length ≤ 1 ∧
    (∀ a ∈ w.asyncWrites, w.sent a.1 ++ a.2 = w.message a.1) ∧
    (w.wire.map (·.1)).Pairwise (· ≤ ·) ∧
    (w.wire.filter fun b => w.Completed b.1).map (·.2) =
      ((List.range w.submitted.length).filter w.Completed).flatMap w.message ∧
    (∀ id, w.calls id ≤ 1) ∧
    (w.asyncWrites = [] → ∀ id < w.submitted.length, w.calls id = 1) ∧
    (∀ es es' w₁ w₂ cb cs, Run (Step cbs) init es w₁ → w₁.strand_ = .shutdown cb :: cs →
      Step cbs w₁ .strand w₂ → Run (Step cbs) w₂ es' w →
      ∀ id, w₂.submitted.length ≤ id → id < w.submitted.length →
        (id, false) ∈ w.called ∧ w.sent id = [] ∧ ∀ a ∈ w.asyncWrites, a.1 ≠ id) ∧
    (∀ c cs, w.strand_ = c :: cs → ∃ w', Step cbs w .strand w' ∧
      ∀ m cb, c = .write m cb → w'.submitted = w.submitted ++ [⟨m, w.shutdown_⟩]) ∧
    (∀ l r id buf n error, w.asyncWrites = l ++ (id, buf) :: r → n ≤ buf.length →
      ∃ w', Step cbs w (.complete error n) w' ∧
        (error = true ∨ n = buf.length → (id, !error) ∈ w'.called)) := by
  have hi := run_inv h
  have hw := hi.writes
  refine ⟨?_, ?_, fun a ha => ?_, hi.wire_sorted, hi.completed_bytes, hi.calls_le, fun hn id hid => ?_,
    fun es es' w₁ w₂ cb cs _ hq hs h₂ id hge hlt => ?_, fun c cs hq => strand_runs hq,
    fun l r id buf n error ha hn => complete_runs hi ha hn error⟩
  · rw [hw]; cases w.outQueue_ <;> simp
  · rw [hw]; cases w.outQueue_ <;> simp
  · cases hq : w.outQueue_ with
    | nil => simp [hw, hq] at ha
    | cons e rest =>
      simp only [hw, hq, List.head?_cons, Option.map_some, Option.toList_some, List.mem_singleton] at ha
      subst ha
      exact hi.left e (hq ▸ List.mem_cons_self)
  · have hnil : w.outQueue_ = [] := by
      cases hq : w.outQueue_ with
      | nil => rfl
      | cons e rest => simp [hn, hq] at hw
    simpa [hnil] using hi.once id hid
  · have h0 : LateFrom w₂.submitted.length w₂ := by
      cases hs with
      | strand hq' hw' =>
        rw [hq] at hq'
        cases hq'
        cases hw'
        refine ⟨rfl, fun id s hid hm => ?_⟩
        rw [List.getElem?_eq_none hid] at hm; cases hm
    have hlate := h₂.inv h0 fun _ _ _ hp hs => step_lateFrom hp hs
    obtain ⟨h1, h2⟩ := hi.late id _ (List.getElem?_eq_getElem hlt)
      (hlate.2 id _ hge (List.getElem?_eq_getElem hlt))
    refine ⟨h1, h2, fun a ha e => ?_⟩
    cases hql : w.outQueue_ with
    | nil => simp [hw, hql] at ha
    | cons f rest =>
      simp only [hw, hql, List.head?_cons, Option.map_some, Option.toList_some, List.mem_singleton] at ha
      subst ha
      exact hi.toCore.not_called (hql ▸ List.mem_cons_self) (e ▸ h1)

/-- A message written in two parts, and one submitted after a shutdown: the callback of
each is invoked once, and the socket has the first alone. -/
theorem writer_correct_two_parts : ∃ w, Run (Step (κ := Unit) ⟨fun _ _ => [], fun _ => []⟩) init
      [.call (.write [7, 8] ()), .strand, .complete false 1, .call (.shutdown ()), .strand,
        .complete false 1, .call (.write [9] ()), .strand] w ∧
    w.calls 0 = 1 ∧ w.calls 1 = 1 ∧ w.wire = [(0, 7), (0, 8)] ∧ (1, false) ∈ w.called := by
  have h : Run (Step (κ := Unit) ⟨fun _ _ => [], fun _ => []⟩) init
      [.call (.write [7, 8] ()), .strand, .complete false 1, .call (.shutdown ()), .strand,
        .complete false 1, .call (.write [9] ()), .strand] _ :=
    .cons (.call _) (.cons (.strand rfl rfl)
      (.cons (.complete (List.nil_append _).symm (by decide) rfl)
        (.cons (.call _) (.cons (.strand rfl rfl)
          (.cons (.complete (List.nil_append _).symm (by decide) rfl)
            (.cons (.call _) (.cons (.strand rfl rfl) .nil)))))))
  have hc := (writer_correct h).2.2.2.2.2.2.1 rfl
  exact ⟨_, h, hc 0 (by decide), hc 1 (by decide), rfl, by decide⟩

end BoostAsyncWriter

end Nio.Net
