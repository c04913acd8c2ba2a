import Mathlib.Data.List.Induction
import NioSocket.Lib.MachineInt

/-!
# Sending on an SCTP socket

`sctp_reactive_socket_send_op` tries to send its buffer, and is tried again by the reactor until it
says that it is done: which it does where `::sctp_send` has taken as many bytes as there are, and
nowhere else. An error is no number of bytes that there are, and neither is a part of them
(`send_completes_iff`).
-/

namespace Nio.Net

/-- An answer of `::sctp_send`: the bytes it has taken, or `-1` and `errno`. -/
inductive SendAnswer
  | accepted (k : Nat)
  | failed (errno : Int)
  deriving DecidableEq, Repr

namespace SendAnswer

/-- `EAGAIN`, and `EWOULDBLOCK`. -/
def EAGAIN : Int := 11

/-- `EINTR`. -/
def EINTR : Int := 4

/-- The call should be made again. -/
def Again : SendAnswer → Prop
  | accepted _ => False
  | failed errno => errno = EAGAIN ∨ errno = EINTR

instance : DecidablePred Again := fun a =>
  match a with
  | accepted _ => inferInstanceAs (Decidable False)
  | failed _ => inferInstanceAs (Decidable (_ ∨ _))

/-- An answer that there can be to so many bytes. -/
def Valid (size : Nat) : SendAnswer → Prop
  | accepted k => 0 < k ∧ k ≤ size ∧ (k : Int) ≤ intMax
  | failed errno => errno ≠ 0

/-- The `int` that is returned, and `errno`, which was cleared before. -/
def call : SendAnswer → Int × Int
  | accepted k => (i32 k, 0)
  | failed errno => (-1, errno)

end SendAnswer

/-- `sctp_reactive_socket_send_op`, with the data members of `reactor_op`. -/
structure SctpSendOp where
  buffers_ : List UInt8
  /-- `state_ & socket_ops::stream_oriented`. -/
  streamOriented : Bool
  ec_ : Int
  bytes_transferred_ : Nat
  deriving DecidableEq, Repr

/-- `reactor_op::status`. -/
inductive OpStatus
  | notDone
  | done
  | doneAndExhausted
  deriving DecidableEq, Repr

namespace SctpSendOp

/-- An operation that has sent nothing. -/
def new (buffers : List UInt8) (streamOriented : Bool) : SctpSendOp := ⟨buffers, streamOriented, 0, 0⟩

/-- `sctp_socket_ops::send`: what it returns, and `ec`. -/
def send (a : SendAnswer) : Int × Int :=
  let (result, ec) := a.call
  (result, if result = 0 then 0 else ec)

/-- A `long` as a `size_t`. -/
def sizeT (result : Int) : Nat := (result % 2 ^ 64).toNat

/-- `sctp_socket_ops::non_blocking_send`. -/
def nonBlockingSend (o : SctpSendOp) (a : SendAnswer) : Bool × SctpSendOp :=
  let (result, ec) := send a
  let bytesTransferred := sizeT result
  (bytesTransferred == o.buffers_.length, { o with ec_ := ec, bytes_transferred_ := bytesTransferred })

/-- `do_perform(base)`. -/
def doPerform (o : SctpSendOp) (a : SendAnswer) : OpStatus × SctpSendOp :=
  let (sent, o) := o.nonBlockingSend a
  let result := if sent then OpStatus.done else .notDone
  (if result = .done ∧ o.streamOriented ∧ o.bytes_transferred_ < o.buffers_.length then .doneAndExhausted else result,
    o)

/-- The bytes that an answer has taken. -/
def taken (o : SctpSendOp) : SendAnswer → List UInt8
  | .accepted k => o.buffers_.take k
  | .failed _ => []

end SctpSendOp

/-- An operation that the reactor performs, until it is done. -/
structure Sending where
  op : SctpSendOp
  status : OpStatus
  /-- How often the buffer was submitted. -/
  submissions : Nat
  /-- The bytes that were taken of it. -/
  wire : List UInt8
  deriving DecidableEq, Repr

namespace Sending

/-- Its state before the first answer. -/
def start (op : SctpSendOp) : Sending := ⟨op, .notDone, 0, []⟩

/-- The reactor performs the operation again. -/
def perform (s : Sending) (a : SendAnswer) : Sending :=
  if s.status = .notDone then
    let (status, op) := s.op.doPerform a
    ⟨op, status, s.submissions + 1, s.wire ++ s.op.taken a⟩
  else s

/-- What some answers bring it to. -/
def run (op : SctpSendOp) (answers : List SendAnswer) : Sending := answers.foldl perform (start op)

/-- What `do_complete` calls the handler with. -/
def completion (s : Sending) : Option (Int × Nat) :=
  if s.status = .notDone then none else some (s.op.ec_, s.op.bytes_transferred_)

end Sending

open Sending (run)

/-- What an answer should end the operation with. -/
def SendAnswer.Ends : SendAnswer → Option (Int × Nat) → Prop
  | accepted k, c => c = some (0, k)
  | failed errno, c => ∃ n, c = some (errno, n)

/-- What the answers should do to the operation: the first that does not ask for another call ends it, and
the buffer is not submitted again. -/
def SctpSendOp.Completes (op : SctpSendOp) (answers : List SendAnswer) : Prop :=
  ∀ before a rest, answers = before ++ a :: rest → (∀ b ∈ before, b.Again) → ¬a.Again →
    (run op before).completion = none ∧ a.Ends (run op (before ++ [a])).completion ∧
      run op answers = run op (before ++ [a]) ∧ (run op answers).wire = op.taken a

/-- The first answer that does not ask for another call has taken the whole buffer. -/
def SctpSendOp.TakenWhole (op : SctpSendOp) (answers : List SendAnswer) : Prop :=
  ∀ before a rest, answers = before ++ a :: rest → (∀ b ∈ before, b.Again) → ¬a.Again →
    a = .accepted op.buffers_.length

/-! ## One attempt -/

namespace SctpSendOp

variable {op : SctpSendOp} {a : SendAnswer}

theorem sizeT_accepted {k : Nat} (hk : (k : Int) ≤ intMax) : sizeT (i32 k) = k := by
  unfold intMax at hk
  rw [i32_eq (by omega) hk, sizeT]
  omega

/-- A string has less than `2 ^ 63` bytes, so `-1` is the size of none. -/
theorem sizeT_failed {l : Nat} (hl : l < 2 ^ 63) : sizeT (-1) ≠ l := by
  unfold sizeT
  omega

theorem nonBlockingSend_iff (ha : a.Valid op.buffers_.length) (hl : op.buffers_.length < 2 ^ 63) :
    (op.nonBlockingSend a).1 = true ↔ a = .accepted op.buffers_.length := by
  cases a with
  | accepted k =>
    obtain ⟨-, -, hk⟩ := ha
    simp [nonBlockingSend, send, SendAnswer.call, sizeT_accepted hk]
  | failed errno =>
    simp [nonBlockingSend, send, SendAnswer.call, sizeT_failed hl]

theorem doPerform_done (ha : (SendAnswer.accepted op.buffers_.length).Valid op.buffers_.length) :
    op.doPerform (.accepted op.buffers_.length) =
      (.done, { op with ec_ := 0, bytes_transferred_ := op.buffers_.length }) := by
  obtain ⟨-, -, hk⟩ := ha
  simp [doPerform, nonBlockingSend, send, SendAnswer.call, sizeT_accepted hk]
  exact ite_self 0

theorem doPerform_notDone (ha : a.Valid op.buffers_.length) (hl : op.buffers_.length < 2 ^ 63)
    (hw : a ≠ .accepted op.buffers_.length) : ∃ ec n, op.doPerform a =
      (.notDone, { op with ec_ := ec, bytes_transferred_ := n }) := by
  have hs : (op.nonBlockingSend a).1 = false := by
    rw [Bool.eq_false_iff]
    exact fun h => hw ((nonBlockingSend_iff ha hl).mp h)
  refine ⟨(send a).2, sizeT (send a).1, ?_⟩
  simp only [nonBlockingSend] at hs
  simp [doPerform, nonBlockingSend, hs]

end SctpSendOp

/-! ## All attempts -/

namespace Sending

variable {op : SctpSendOp} {s : Sending} {n : Nat} {a : SendAnswer} {answers before rest : List SendAnswer}

/-- The operation is not done after `n` attempts. -/
structure Waiting (op : SctpSendOp) (n : Nat) (s : Sending) : Prop where
  status : s.status = .notDone
  buffers_ : s.op.buffers_ = op.buffers_
  submissions : s.submissions = n

theorem start_waiting (op : SctpSendOp) : Waiting op 0 (start op) := ⟨rfl, rfl, rfl⟩

theorem Waiting.perform (h : Waiting op n s) (ha : a.Valid op.buffers_.length) (hl : op.buffers_.length < 2 ^ 63)
    (hw : a ≠ .accepted op.buffers_.length) :
    Waiting op (n + 1) (s.perform a) ∧ (s.perform a).wire = s.wire ++ op.taken a := by
  obtain ⟨ec, m, e⟩ := SctpSendOp.doPerform_notDone (by rw [h.buffers_]; exact ha)
    (by rw [h.buffers_]; exact hl) (by rw [h.buffers_]; exact hw)
  have htaken : s.op.taken a = op.taken a := by
    cases a with
    | accepted k => exact congrArg (List.take k) h.buffers_
    | failed => rfl
  simp only [Sending.perform, if_pos h.status, e, htaken]
  exact ⟨⟨rfl, h.buffers_, congrArg (· + 1) h.submissions⟩, trivial⟩

theorem Waiting.completion (h : Waiting op n s) : s.completion = none := if_pos h.status

theorem run_concat (op : SctpSendOp) (answers : List SendAnswer) (a : SendAnswer) :
    run op (answers ++ [a]) = (run op answers).perform a := by
  simp only [run, List.foldl_append, List.foldl_cons, List.foldl_nil]

/-- As long as the kernel asks for another call, nothing is taken, and the operation is not done. -/
theorem run_again (hl : op.buffers_.length < 2 ^ 63) (hv : ∀ b ∈ before, b.Valid op.buffers_.length)
    (h : ∀ b ∈ before, b.Again) : Waiting op before.length (run op before) ∧ (run op before).wire = [] := by
  induction before using List.reverseRecOn with
  | nil => exact ⟨start_waiting op, rfl⟩
  | append_singleton before b ih =>
    obtain ⟨hw, hwire⟩ := ih (fun c hc => hv c (by simp [hc])) fun c hc => h c (by simp [hc])
    have hb := h b (by simp)
    have hne : b ≠ .accepted op.buffers_.length := by
      rintro rfl
      exact hb
    have htaken : op.taken b = [] := by
      cases b with
      | accepted => exact absurd hb id
      | failed => rfl
    obtain ⟨hw', hwire'⟩ := hw.perform (hv b (by simp)) hl hne
    rw [run_concat, List.length_append]
    exact ⟨hw', by rw [hwire', hwire, htaken]; rfl⟩

/-- An operation that is done is not performed again. -/
theorem foldl_perform (hd : s.status ≠ .notDone) (answers : List SendAnswer) : answers.foldl perform s = s := by
  induction answers with
  | nil => rfl
  | cons a answers ih =>
    have e : s.perform a = s := if_neg hd
    rw [List.foldl_cons, e, ih]

theorem run_append (op : SctpSendOp) (before rest : List SendAnswer) (a : SendAnswer) :
    run op (before ++ a :: rest) = rest.foldl perform ((run op before).perform a) := by
  rw [run, List.foldl_append, List.foldl_cons]
  rfl

/-- The whole buffer was taken: the operation is done. -/
theorem run_whole (hl : op.buffers_.length < 2 ^ 63) (hv : ∀ b ∈ before, b.Valid op.buffers_.length)
    (h : ∀ b ∈ before, b.Again) (ha : (SendAnswer.accepted op.buffers_.length).Valid op.buffers_.length) :
    run op (before ++ [.accepted op.buffers_.length]) =
      ⟨{ (run op before).op with ec_ := 0, bytes_transferred_ := op.buffers_.length }, .done, before.length + 1,
        op.taken (.accepted op.buffers_.length)⟩ := by
  obtain ⟨hw, hwire⟩ := run_again hl hv h
  have hb := hw.buffers_
  have e := SctpSendOp.doPerform_done (by rw [hb]; exact ha)
  rw [hb] at e
  rw [run_concat]
  simp only [perform, if_pos hw.status, e, hwire, hw.submissions, hb, SctpSendOp.taken, List.nil_append]

/-- Any other answer is followed by another attempt. -/
theorem run_other (hl : op.buffers_.length < 2 ^ 63) (hv : ∀ b ∈ before, b.Valid op.buffers_.length)
    (h : ∀ b ∈ before, b.Again) (ha : a.Valid op.buffers_.length) (hw : a ≠ .accepted op.buffers_.length) :
    (run op (before ++ [a])).completion = none := by
  rw [run_concat]
  exact ((run_again hl hv h).1.perform ha hl hw).1.completion

end Sending

namespace SctpSendOp

variable {op : SctpSendOp} {answers : List SendAnswer}

/-- The operation does what it should exactly where the first answer that does not ask for another call has
taken the whole buffer: after an error, and after a part of the buffer, it is submitted again. -/
theorem send_completes_iff (hl : op.buffers_.length < 2 ^ 63) (hv : ∀ a ∈ answers, a.Valid op.buffers_.length) :
    op.Completes answers ↔ op.TakenWhole answers := by
  have valid : ∀ before a rest, answers = before ++ a :: rest →
      (∀ b ∈ before, b.Valid op.buffers_.length) ∧ a.Valid op.buffers_.length := by
    rintro before a rest rfl
    exact ⟨fun b hm => hv b (List.mem_append_left _ hm), hv a (by simp)⟩
  constructor
  · intro h before a rest he hb ha
    obtain ⟨hvb, hva⟩ := valid before a rest he
    obtain ⟨-, hends, -⟩ := h before a rest he hb ha
    by_contra hw
    rw [Sending.run_other hl hvb hb hva hw] at hends
    cases a with
    | accepted k => cases hends
    | failed errno =>
      obtain ⟨n, hn⟩ := hends
      cases hn
  · intro h before a rest he hb ha
    obtain ⟨hvb, hva⟩ := valid before a rest he
    obtain rfl := h before a rest he hb ha
    have e := Sending.run_whole hl hvb hb hva
    have hall : run op answers = run op (before ++ [.accepted op.buffers_.length]) := by
      rw [he, Sending.run_append, ← Sending.run_concat, e]
      exact Sending.foldl_perform (by simp) rest
    refine ⟨(Sending.run_again hl hvb hb).1.completion, ?_, hall, ?_⟩
    · rw [e]
      rfl
    · rw [hall, e]

/-- A socket that is full at first, and then takes the three bytes. -/
theorem send_completes_iff_three : (new [1, 2, 3] false).Completes [.failed 11, .accepted 3] ↔
    (new [1, 2, 3] false).TakenWhole [.failed 11, .accepted 3] :=
  send_completes_iff (by decide) (by simp [new, SendAnswer.Valid, intMax])

/-- A broken connection does not end the operation; and of two bytes that were taken, the operation
submits both again. -/
theorem not_completes : ¬(new [1, 2, 3] false).Completes [.failed 104] ∧
    (run (new [1, 2, 3] false) [.accepted 2, .accepted 3]).wire = [1, 2, 1, 2, 3] ∧
    ¬(new [1, 2, 3] false).Completes [.accepted 2, .accepted 3] := by
  refine ⟨fun h => ?_, by decide, fun h => ?_⟩
  · obtain ⟨-, ⟨n, hn⟩, -⟩ := h [] (.failed 104) [] rfl (by simp) (by decide)
    cases hn
  · obtain ⟨-, hc, -⟩ := h [] (.accepted 2) [.accepted 3] rfl (by simp) (by decide)
    cases hc

end SctpSendOp

end Nio.Net
