import NioSocket.Concurrent.ObjectQueue
import NioSocket.Lib.Trans
import Mathlib.Data.List.Perm.Basic

/-!
# The executor service

`ExecutorService`: the threads of the pool in `takeProcTask()`, the calls of `submit` and one call
of `shutdown`, interleaved. What is done under the mutex of the queue is one step, and so is each
read or write of a flag, `notify_one()`, `interrupt()` and `join()`; `take()` waits at most
once, and wakes up when it is notified, interrupted, or for no reason. Every task that was added is
started once and in order, and none waits in the queue while all threads sleep (`tasks_of_run`);
when `shutdown(true)` returns, the tasks that were there are done (`shutdown_completes`).
-/

namespace Nio.Concurrent

/-- Where a thread of the pool is. -/
inductive Worker (κ : Type)
  /-- At `while( !stop_ )`. -/
  | loop
  /-- In `take()`, about to lock the mutex. -/
  | take
  /-- In `cond_.wait( mutex_ )`. -/
  | waiting
  /-- Behind the wait, about to lock the mutex again. -/
  | woken
  /-- In `task->call()`. -/
  | call (task : κ)
  | done
  deriving DecidableEq

/-- Where a call of `submit` is. -/
inductive Submission (κ : Type)
  /-- It has seen that `pause_` is not set. -/
  | checked (tasks : List κ)
  /-- The tasks are in the queue; `notify_one()` is next. -/
  | added
  | returned (accepted : Bool)
  deriving DecidableEq

/-- Where the call of `shutdown` is. -/
inductive Shutdown
  | idle
  /-- At `while( tasks_.size() > 0 )`. -/
  | polling
  /-- At `stop_ = true`. -/
  | stopping
  /-- About to interrupt thread `k`. -/
  | interrupting (k : Nat)
  /-- Joining thread `k`. -/
  | joining (k : Nat)
  | returned
  deriving DecidableEq

/-- The data members of an `ExecutorService`, its threads and the calls on it. -/
structure ExecutorService (κ : Type) where
  stop_ : Bool
  pause_ : Bool
  tasks_ : ObjectQueue (Option κ)
  threadNum_ : Nat
  worker : Nat → Worker κ
  /-- The threads with an interruption that was requested and not delivered. -/
  interrupted : Nat → Bool
  submissions : List (Submission κ)
  shutdown : Shutdown
  /-- The tasks that were added to the queue. -/
  added : List κ
  /-- The tasks that were taken out of it. -/
  started : List κ
  /-- The tasks whose `call()` has returned. -/
  executed : List κ

namespace ExecutorService

variable {κ : Type}

/-- `ExecutorService(threadNums)`, its threads started. -/
def init (threadNums : Nat) : ExecutorService κ :=
  ⟨false, false, .init, threadNums, fun _ => .loop, fun _ => false, [], .idle, [], [], []⟩

/-- What the threads do, and those that call. -/
inductive Event (κ : Type)
  /-- Thread `i` looks at `stop_`. -/
  | check (i : Nat)
  /-- It locks the mutex, and takes a task or waits. -/
  | take (i : Nat)
  /-- It wakes up for no reason. -/
  | wake (i : Nat)
  /-- Its wait is interrupted. -/
  | interruption (i : Nat)
  /-- It has the mutex again after the wait, and takes a task if there is one. -/
  | resume (i : Nat)
  /-- Its task returns. -/
  | finish (i : Nat)
  /-- Its task is interrupted. -/
  | swallow (i : Nat)
  /-- `submit(tasks)` begins, `none` an empty function. -/
  | submit (tasks : List (Option κ))
  /-- Call `j` of `submit` adds its tasks. -/
  | add (j : Nat)
  /-- It notifies thread `i`, or no thread. -/
  | notify (j : Nat) (i : Option Nat)
  /-- `shutdown(waitAllTaskFinish)` begins. -/
  | shutdown (waitAllTaskFinish : Bool)
  | poll
  | stop
  | interrupt
  | join
  deriving DecidableEq

/-- A thread goes on. -/
def setWorker (s : ExecutorService κ) (i : Nat) (w : Worker κ) : ExecutorService κ :=
  { s with worker := Function.update s.worker i w }

/-- A call of `submit` goes on. -/
def setSubmission (s : ExecutorService κ) (j : Nat) (x : Submission κ) : ExecutorService κ :=
  { s with submissions := s.submissions.set j x }

/-- Thread `i` has taken `x` out of the queue; a null pointer is no task. -/
def taken (s : ExecutorService κ) (i : Nat) (x : Option κ) (q : ObjectQueue (Option κ)) : ExecutorService κ :=
  { s.setWorker i ((x.map .call).getD .loop) with tasks_ := q, started := s.started ++ x.toList }

/-- A call of `submit`: empty functions are left out. -/
def submit (s : ExecutorService κ) (tasks : List (Option κ)) : ExecutorService κ :=
  let callableList := tasks.filterMap id
  { s with submissions := s.submissions ++
      [if s.pause_ || callableList.isEmpty then .returned false else .checked callableList] }

/-- What a step comes to. -/
inductive Step (s : ExecutorService κ) : Event κ → ExecutorService κ → Prop
  | check {i : Nat} : i < s.threadNum_ → s.worker i = .loop →
      Step s (.check i) (s.setWorker i (if s.stop_ then .done else .take))
  | take {i : Nat} {x : Option κ} {q : ObjectQueue (Option κ)} : i < s.threadNum_ → s.worker i = .take →
      ¬s.tasks_.size_ ≤ 0 → ObjectQueue.take s.tasks_ = .ok x q → Step s (.take i) (s.taken i x q)
  | wait {i : Nat} : i < s.threadNum_ → s.worker i = .take → s.tasks_.size_ ≤ 0 →
      Step s (.take i) (s.setWorker i .waiting)
  | wake {i : Nat} : i < s.threadNum_ → s.worker i = .waiting → Step s (.wake i) (s.setWorker i .woken)
  | interruption {i : Nat} : i < s.threadNum_ → s.worker i = .waiting → s.interrupted i = true →
      Step s (.interruption i) { s.setWorker i .woken with interrupted := Function.update s.interrupted i false }
  | resume {i : Nat} {x : Option κ} {q : ObjectQueue (Option κ)} : i < s.threadNum_ → s.worker i = .woken →
      ObjectQueue.take s.tasks_ = .ok x q → Step s (.resume i) (s.taken i x q)
  | finish {i : Nat} {t : κ} : i < s.threadNum_ → s.worker i = .call t →
      Step s (.finish i) { s.setWorker i .loop with executed := s.executed ++ [t] }
  | swallow {i : Nat} {t : κ} : i < s.threadNum_ → s.worker i = .call t → s.interrupted i = true →
      Step s (.swallow i) { s with interrupted := Function.update s.interrupted i false }
  | submit (tasks : List (Option κ)) : Step s (.submit tasks) (s.submit tasks)
  | add {j : Nat} {ts : List κ} {n : Int} {q : ObjectQueue (Option κ)} : s.submissions[j]? = some (.checked ts) →
      ObjectQueue.addList (ts.map some) s.tasks_ = .ok n q →
      Step s (.add j) { s.setSubmission j .added with tasks_ := q, added := s.added ++ ts }
  | notify {j i : Nat} : s.submissions[j]? = some .added → i < s.threadNum_ → s.worker i = .waiting →
      Step s (.notify j (some i)) ((s.setSubmission j (.returned true)).setWorker i .woken)
  | notifyNone {j : Nat} : s.submissions[j]? = some .added → (∀ i < s.threadNum_, s.worker i ≠ .waiting) →
      Step s (.notify j none) (s.setSubmission j (.returned true))
  | shutdown (wait : Bool) : s.shutdown = .idle →
      Step s (.shutdown wait) { s with pause_ := true, shutdown := if wait then .polling else .stopping }
  | poll : s.shutdown = .polling →
      Step s .poll { s with shutdown := if s.tasks_.size_ > 0 then .polling else .stopping }
  | stop : s.shutdown = .stopping → Step s .stop { s with stop_ := true, shutdown := .interrupting 0 }
  | interrupt {k : Nat} : s.shutdown = .interrupting k → k < s.threadNum_ →
      Step s .interrupt { s with interrupted := Function.update s.interrupted k true, shutdown := .joining k }
  | join {k : Nat} : s.shutdown = .joining k → s.worker k = .done →
      Step s .join { s with shutdown := .interrupting (k + 1) }
  | joined {k : Nat} : s.shutdown = .interrupting k → ¬k < s.threadNum_ → Step s .join { s with shutdown := .returned }

/-- The step, computed. -/
def next (s : ExecutorService κ) : Event κ → Option (ExecutorService κ)
  | .check i =>
    match s.worker i with
    | .loop => if i < s.threadNum_ then some (s.setWorker i (if s.stop_ then .done else .take)) else none
    | _ => none
  | .take i =>
    match s.worker i with
    | .take =>
      if i < s.threadNum_ then
        if s.tasks_.size_ ≤ 0 then some (s.setWorker i .waiting)
        else
          match ObjectQueue.take s.tasks_ with
          | .ok x q => some (s.taken i x q)
          | _ => none
      else none
    | _ => none
  | .wake i =>
    match s.worker i with
    | .waiting => if i < s.threadNum_ then some (s.setWorker i .woken) else none
    | _ => none
  | .interruption i =>
    match s.worker i with
    | .waiting =>
      if i < s.threadNum_ ∧ s.interrupted i = true then
        some { s.setWorker i .woken with interrupted := Function.update s.interrupted i false }
      else none
    | _ => none
  | .resume i =>
    match s.worker i with
    | .woken =>
      if i < s.threadNum_ then
        match ObjectQueue.take s.tasks_ with
        | .ok x q => some (s.taken i x q)
        | _ => none
      else none
    | _ => none
  | .finish i =>
    match s.worker i with
    | .call t => if i < s.threadNum_ then some { s.setWorker i .loop with executed := s.executed ++ [t] } else none
    | _ => none
  | .swallow i =>
    match s.worker i with
    | .call _ =>
      if i < s.threadNum_ ∧ s.interrupted i = true then
        some { s with interrupted := Function.update s.interrupted i false }
      else none
    | _ => none
  | .submit tasks => some (s.submit tasks)
  | .add j =>
    match s.submissions[j]? with
    | some (.checked ts) =>
      match ObjectQueue.addList (ts.map some) s.tasks_ with
      | .ok _ q => some { s.setSubmission j .added with tasks_ := q, added := s.added ++ ts }
      | _ => none
    | _ => none
  | .notify j (some i) =>
    match s.submissions[j]?, s.worker i with
    | some .added, .waiting =>
      if i < s.threadNum_ then some ((s.setSubmission j (.returned true)).setWorker i .woken) else none
    | _, _ => none
  | .notify j none =>
    match s.submissions[j]? with
    | some .added =>
      if (List.range s.threadNum_).all fun i => !(s.worker i matches .waiting) then
        some (s.setSubmission j (.returned true))
      else none
    | _ => none
  | .shutdown wait =>
    if s.shutdown = .idle then some { s with pause_ := true, shutdown := if wait then .polling else .stopping } else none
  | .poll =>
    if s.shutdown = .polling then some { s with shutdown := if s.tasks_.size_ > 0 then .polling else .stopping } else none
  | .stop => if s.shutdown = .stopping then some { s with stop_ := true, shutdown := .interrupting 0 } else none
  | .interrupt =>
    match s.shutdown with
    | .interrupting k =>
      if k < s.threadNum_ then
        some { s with interrupted := Function.update s.interrupted k true, shutdown := .joining k }
      else none
    | _ => none
  | .join =>
    match s.shutdown with
    | .joining k =>
      match s.worker k with
      | .done => some { s with shutdown := .interrupting (k + 1) }
      | _ => none
    | .interrupting k => if ¬k < s.threadNum_ then some { s with shutdown := .returned } else none
    | _ => none

variable {s s' : ExecutorService κ} {e : Event κ} {es : List (Event κ)}

theorem Step.of_next (h : s.next e = some s') : Step s e s' := by
  cases e with
  | check i =>
    simp only [next] at h
    split at h
    · split at h
      · cases h
        exact .check ‹_› ‹_›
      · cases h
    · cases h
  | take i =>
    simp only [next] at h
    split at h
    · split at h
      · split at h
        · cases h
          exact .wait ‹_› ‹_› ‹_›
        · split at h
          · cases h
            exact .take ‹_› ‹_› ‹_› ‹_›
          · cases h
      · cases h
    · cases h
  | wake i =>
    simp only [next] at h
    split at h
    · split at h
      · cases h
        exact .wake ‹_› ‹_›
      · cases h
    · cases h
  | interruption i =>
    simp only [next] at h
    split at h
    · split at h
      · rename_i hi
        cases h
        exact .interruption hi.1 ‹_› hi.2
      · cases h
    · cases h
  | resume i =>
    simp only [next] at h
    split at h
    · split at h
      · split at h
        · cases h
          exact .resume ‹_› ‹_› ‹_›
        · cases h
      · cases h
    · cases h
  | finish i =>
    simp only [next] at h
    split at h
    · split at h
      · cases h
        exact .finish ‹_› ‹_›
      · cases h
    · cases h
  | swallow i =>
    simp only [next] at h
    split at h
    · split at h
      · rename_i hi
        cases h
        exact .swallow hi.1 ‹_› hi.2
      · cases h
    · cases h
  | submit tasks =>
    cases h
    exact .submit tasks
  | add j =>
    simp only [next] at h
    split at h
    · split at h
      · cases h
        exact .add ‹_› ‹_›
      · cases h
    · cases h
  | notify j i =>
    cases i with
    | some i =>
      simp only [next] at h
      split at h
      · split at h
        · cases h
          exact .notify ‹_› ‹_› ‹_›
        · cases h
      · cases h
    | none =>
      simp only [next] at h
      split at h
      · split at h
        · rename_i hall
          cases h
          refine .notifyNone ‹_› fun i hi hw => ?_
          have := List.all_eq_true.mp hall i (List.mem_range.mpr hi)
          rw [hw] at this
          cases this
        · cases h
      · cases h
  | shutdown wait =>
    simp only [next] at h
    split at h
    · cases h
      exact .shutdown wait ‹_›
    · cases h
  | poll =>
    simp only [next] at h
    split at h
    · cases h
      exact .poll ‹_›
    · cases h
  | stop =>
    simp only [next] at h
    split at h
    · cases h
      exact .stop ‹_›
    · cases h
  | interrupt =>
    simp only [next] at h
    split at h
    · split at h
      · cases h
        exact .interrupt ‹_› ‹_›
      · cases h
    · cases h
  | join =>
    simp only [next] at h
    split at h
    · split at h
      · cases h
        exact .join ‹_› ‹_›
      · cases h
    · split at h
      · cases h
        exact .joined ‹_› ‹_›
      · cases h
    · cases h

/-! ## The tasks that run -/

end ExecutorService

/-- The task that a thread runs. -/
def Worker.task? {κ : Type} : Worker κ → Option κ
  | .call t => some t
  | _ => none

/-- The thread comes to the queue without being notified. -/
def Worker.Awake {κ : Type} : Worker κ → Prop
  | .waiting | .done => False
  | _ => True

/-- `stop_` is set. -/
def Shutdown.Stopped : Shutdown → Prop
  | .interrupting _ | .joining _ | .returned => True
  | _ => False

/-- Thread `i` of `n` was joined. -/
def Shutdown.Joined (n i : Nat) : Shutdown → Prop
  | .interrupting k | .joining k => i < k
  | .returned => i < n
  | _ => False

namespace ExecutorService

variable {κ : Type} {s s' : ExecutorService κ} {e : Event κ} {es : List (Event κ)} {i j k : Nat} {w : Worker κ}

/-- The tasks that run. -/
def running (s : ExecutorService κ) : List κ := (List.range s.threadNum_).filterMap fun i => (s.worker i).task?

/-- A thread that goes elsewhere takes its task with it. -/
theorem running_update (hi : i < s.threadNum_) (hn : s'.threadNum_ = s.threadNum_)
    (hw : s'.worker = Function.update s.worker i w) :
    ((s.worker i).task?.toList ++ s'.running).Perm (w.task?.toList ++ s.running) := by
  obtain ⟨k, hk⟩ := Nat.exists_eq_add_of_lt hi
  have hrange : List.range s.threadNum_ = List.range i ++ (i :: (List.range k).map (i + 1 + ·)) := by
    rw [hk, Nat.add_assoc, List.range_add, Nat.add_comm k 1, List.range_add, List.map_append, List.map_map]
    simp [Function.comp_def, Nat.add_assoc]
  have hne : ∀ l : List Nat, i ∉ l →
      l.filterMap (fun j => (s'.worker j).task?) = l.filterMap fun j => (s.worker j).task? :=
    fun l hl => List.filterMap_congr fun j hj => by rw [hw, Function.update_of_ne (fun e => hl (by rwa [← e]))]
  have hlow : i ∉ List.range i := by simp
  have hhigh : i ∉ (List.range k).map (i + 1 + ·) := by
    simp only [List.mem_map, List.mem_range, not_exists, not_and]
    omega
  have hcons : ∀ (x : Option κ) (f : Nat → Option κ) (l : List Nat), f i = x →
      (i :: l).filterMap f = x.toList ++ l.filterMap f := by
    rintro x f l rfl
    cases h : f i <;> simp [h]
  simp only [running, hn, hrange, List.filterMap_append, hne _ hlow]
  rw [hcons w.task? _ _ (by rw [hw, Function.update_self]), hcons (s.worker i).task? _ _ rfl, hne _ hhigh]
  generalize (s.worker i).task?.toList = a
  generalize w.task?.toList = b
  generalize (List.range i).filterMap _ = c
  generalize ((List.range k).map _).filterMap _ = d
  calc a ++ (c ++ (b ++ d)) = a ++ ((c ++ b) ++ d) := by rw [List.append_assoc]
    _ |>.Perm (a ++ ((b ++ c) ++ d)) := (List.perm_append_comm.append_right d).append_left a
    _ = (a ++ b) ++ (c ++ d) := by simp
    _ |>.Perm ((b ++ a) ++ (c ++ d)) := List.perm_append_comm.append_right _
    _ = b ++ ((a ++ c) ++ d) := by simp
    _ |>.Perm (b ++ ((c ++ a) ++ d)) := (List.perm_append_comm.append_right d).append_left b
    _ = b ++ (c ++ (a ++ d)) := by rw [List.append_assoc]

/-! ## The invariant -/

/-- What holds in every reachable state. -/
structure Inv (s : ExecutorService κ) : Prop where
  queue : ∃ ids xs, s.tasks_.Holds ids (xs.map some) ∧ s.added = s.started ++ xs
  started : s.started.Perm (s.executed ++ s.running)
  /-- A task that waits has a thread that will come for it, or one that is about to be notified. -/
  awake : s.stop_ = false → 0 < s.tasks_.size_ → 0 < s.threadNum_ →
    (∃ i < s.threadNum_, (s.worker i).Awake) ∨ .added ∈ s.submissions
  alive : s.stop_ = false → ∀ i, s.worker i ≠ .done
  pausing : s.shutdown ≠ .idle → s.pause_ = true
  stopped : s.stop_ = true ↔ s.shutdown.Stopped
  joined : ∀ i, s.shutdown.Joined s.threadNum_ i → s.worker i = .done
  /-- A thread that is joined and may wait has an interruption pending. -/
  ending : ∀ k, s.shutdown = .joining k → s.worker k = .waiting ∨ s.worker k = .take → s.interrupted k = true
  joining_lt : ∀ k, s.shutdown = .joining k → k < s.threadNum_

theorem init_inv (n : Nat) : Inv (init n : ExecutorService κ) where
  queue := ⟨[], [], ObjectQueue.init_holds, rfl⟩
  started := by
    have h : (init n : ExecutorService κ).running = [] := List.filterMap_eq_nil_iff.mpr fun _ _ => rfl
    rw [h]
    exact .refl _
  awake _ h := absurd h (Int.lt_irrefl 0)
  alive _ i h := by cases h
  pausing h := absurd rfl h
  stopped := ⟨(fun h => by cases h), False.elim⟩
  joined _ h := h.elim
  ending _ h := by cases h
  joining_lt _ h := by cases h

/-- A step of thread `i`, which goes to `w`. -/
structure Moves (s s' : ExecutorService κ) (i : Nat) (w : Worker κ) : Prop where
  lt : i < s.threadNum_
  ne_done : s.worker i ≠ .done
  worker : s'.worker = Function.update s.worker i w
  threadNum_ : s'.threadNum_ = s.threadNum_
  stop_ : s'.stop_ = s.stop_
  pause_ : s'.pause_ = s.pause_
  shutdown : s'.shutdown = s.shutdown
  interrupted : ∀ k, k ≠ i → s'.interrupted k = s.interrupted k

theorem Inv.moves (h : Inv s) (m : Moves s s' i w)
    (hq : ∃ ids xs, s'.tasks_.Holds ids (xs.map some) ∧ s'.added = s'.started ++ xs)
    (hr : s'.started.Perm (s'.executed ++ s'.running)) (ha : 0 < s'.tasks_.size_ → w ≠ .done → w.Awake)
    (hd : w = .done → s.stop_ = true) (he : w = .waiting ∨ w = .take → s.shutdown = .joining i → s'.interrupted i = true) :
    Inv s' where
  queue := hq
  started := hr
  awake hs hsize _ := by
    rw [m.stop_] at hs
    have hne : w ≠ .done := fun hw => by
      rw [hd hw] at hs
      cases hs
    refine .inl ⟨i, m.threadNum_ ▸ m.lt, ?_⟩
    rw [m.worker, Function.update_self]
    exact ha hsize hne
  alive hs k hk := by
    rw [m.stop_] at hs
    rw [m.worker] at hk
    by_cases hki : k = i
    · subst hki
      rw [Function.update_self] at hk
      rw [hd hk] at hs
      cases hs
    · rw [Function.update_of_ne hki] at hk
      exact h.alive hs k hk
  pausing hs := by
    rw [m.shutdown] at hs
    rw [m.pause_]
    exact h.pausing hs
  stopped := by
    rw [m.stop_, m.shutdown]
    exact h.stopped
  joined k hk := by
    rw [m.shutdown, m.threadNum_] at hk
    have hdone := h.joined k hk
    have hki : k ≠ i := fun e => m.ne_done (e ▸ hdone)
    rw [m.worker, Function.update_of_ne hki, hdone]
  ending k hk hw := by
    rw [m.shutdown] at hk
    rw [m.worker] at hw
    by_cases hki : k = i
    · subst hki
      rw [Function.update_self] at hw
      exact he hw hk
    · rw [Function.update_of_ne hki] at hw
      rw [m.interrupted k hki]
      exact h.ending k hk hw
  joining_lt := by
    rw [m.shutdown, m.threadNum_]
    exact h.joining_lt

/-- Taking out of a queue that holds tasks. -/
theorem Inv.take_eq (h : Inv s) {x : Option κ} {q : ObjectQueue (Option κ)} (e : ObjectQueue.take s.tasks_ = .ok x q) :
    ∃ ids xs, q.Holds ids (xs.map some) ∧ s.added = s.started ++ x.toList ++ xs := by
  obtain ⟨ids, xs, hq, ha⟩ := h.queue
  cases xs with
  | nil =>
    rw [ObjectQueue.take, if_pos (hq.size_le_zero.mpr rfl)] at e
    obtain ⟨rfl, rfl⟩ := Outcome.ok.inj e
    exact ⟨ids, [], hq, by rw [ha]; simp [default]⟩
  | cons t ts =>
    obtain ⟨q', ids', e', hq'⟩ := ObjectQueue.pop_ok hq
    rw [ObjectQueue.take, if_neg (hq.size_le_zero.not.mpr (by simp)), e'] at e
    obtain ⟨rfl, rfl⟩ := Outcome.ok.inj e
    exact ⟨ids', ts, hq', by rw [ha]; simp⟩

theorem Inv.taken (h : Inv s) {x : Option κ} {q : ObjectQueue (Option κ)} (hi : i < s.threadNum_)
    (hw : s.worker i = .take ∨ s.worker i = .woken) (e : ObjectQueue.take s.tasks_ = .ok x q) : Inv (s.taken i x q) := by
  have htask : (s.worker i).task? = none := by rcases hw with hw | hw <;> rw [hw] <;> rfl
  have hnew : ((x.map Worker.call).getD .loop).task? = x := by cases x <;> rfl
  have hrun : (s.taken i x q).running.Perm (x.toList ++ s.running) := by
    have hrun : ((s.worker i).task?.toList ++ (s.taken i x q).running).Perm _ := running_update hi rfl rfl
    rwa [htask, hnew] at hrun
  refine h.moves (i := i) (w := (x.map .call).getD .loop) ⟨hi, ?_, rfl, rfl, rfl, rfl, rfl, fun _ _ => rfl⟩
    (h.take_eq e) ?_
    (fun _ _ => ?_) (fun hd => ?_) fun hw' => ?_
  · rcases hw with hw | hw <;> simp [hw]
  · calc s.started ++ x.toList
      _ |>.Perm (s.executed ++ s.running ++ x.toList) := h.started.append_right _
      _ = s.executed ++ (s.running ++ x.toList) := List.append_assoc ..
      _ |>.Perm (s.executed ++ (x.toList ++ s.running)) := List.perm_append_comm.append_left _
      _ |>.Perm (s.executed ++ (s.taken i x q).running) := hrun.symm.append_left _
  · cases x <;> trivial
  · cases x <;> cases hd
  · cases x <;> simp at hw'

/-- A step that moves a thread, and leaves the queue alone. -/
theorem Inv.goes (h : Inv s) (m : Moves s s' i w) (ht : (s.worker i).task? = w.task?) (hq : s'.tasks_ = s.tasks_)
    (hadd : s'.added = s.added) (hst : s'.started = s.started) (hex : s'.executed = s.executed)
    (ha : 0 < s.tasks_.size_ → w ≠ .done → w.Awake) (hd : w = .done → s.stop_ = true)
    (he : w = .waiting ∨ w = .take → s.shutdown = .joining i → s'.interrupted i = true) : Inv s' := by
  refine h.moves m (by rw [hq, hadd, hst]; exact h.queue) ?_ (by rw [hq]; exact ha) hd he
  have hrun := running_update m.lt m.threadNum_ m.worker
  rw [ht] at hrun
  rw [hst, hex]
  exact h.started.trans (((List.perm_append_left_iff _).mp hrun).symm.append_left _)

/-- A step of another thread than those of the pool. -/
theorem Inv.aside (h : Inv s) (hw : s'.worker = s.worker) (hn : s'.threadNum_ = s.threadNum_) (hst : s'.started = s.started)
    (hex : s'.executed = s.executed) (hstop : s'.stop_ = s.stop_) (hp : s'.pause_ = s.pause_)
    (hsh : s'.shutdown = s.shutdown) (hint : s'.interrupted = s.interrupted)
    (hq : ∃ ids xs, s'.tasks_.Holds ids (xs.map some) ∧ s'.added = s'.started ++ xs)
    (ha : s'.tasks_ = s.tasks_ ∧ (.added ∈ s.submissions → .added ∈ s'.submissions ∨
      ∀ i < s.threadNum_, s.worker i ≠ .waiting) ∨ .added ∈ s'.submissions) : Inv s' where
  queue := hq
  started := by
    rw [hst, hex, running, hn, hw]
    exact h.started
  awake hs hsize h0 := by
    rw [hstop] at hs
    rw [hn] at h0 ⊢
    rw [hw]
    rcases ha with ⟨ht, hsub⟩ | hsub
    · rw [ht] at hsize
      rcases h.awake hs hsize h0 with ha | ha
      · exact .inl ha
      · refine (hsub ha).elim .inr fun hall => .inl ⟨0, h0, ?_⟩
        -- no thread waits, and none is done
        have h₁ := hall 0 h0
        have h₂ := h.alive hs 0
        cases hw0 : s.worker 0 with
        | waiting => exact absurd hw0 h₁
        | done => exact absurd hw0 h₂
        | loop | take | woken | call => trivial
    · exact .inr hsub
  alive hs := by
    rw [hw]
    exact h.alive (hstop ▸ hs)
  pausing hs := by
    rw [hp]
    exact h.pausing (hsh ▸ hs)
  stopped := by
    rw [hstop, hsh]
    exact h.stopped
  joined := by
    rw [hsh, hn, hw]
    exact h.joined
  ending := by
    rw [hsh, hw, hint]
    exact h.ending
  joining_lt := by
    rw [hsh, hn]
    exact h.joining_lt

/-- A step of the call of `shutdown`. -/
theorem Inv.shuts (h : Inv s) {d : Shutdown} {p : Bool} {f : Nat → Bool} {t : Bool} (hp : d ≠ .idle → p = true)
    (ht : t = true ↔ d.Stopped) (hs : s.stop_ = true → t = true) (hj : ∀ i, d.Joined s.threadNum_ i → s.worker i = .done)
    (he : ∀ k, d = .joining k → k < s.threadNum_ ∧ (s.worker k = .waiting ∨ s.worker k = .take → f k = true)) :
    Inv { s with pause_ := p, shutdown := d, interrupted := f, stop_ := t } where
  queue := h.queue
  started := h.started
  awake h₀ := h.awake (Bool.eq_false_iff.mpr fun hs' => by rw [hs hs'] at h₀; cases h₀)
  alive h₀ := h.alive (Bool.eq_false_iff.mpr fun hs' => by rw [hs hs'] at h₀; cases h₀)
  pausing := hp
  stopped := ht
  joined := hj
  ending k hk := (he k hk).2
  joining_lt k hk := (he k hk).1

theorem Inv.step (h : Inv s) (st : Step s e s') : Inv s' := by
  cases st with
  | @check i hi hw =>
    cases hs : s.stop_ with
    | true =>
      refine h.goes (i := i) (w := .done) ⟨hi, by simp [hw], by simp [setWorker], rfl, rfl, rfl, rfl, fun _ _ => rfl⟩
        (by rw [hw]; rfl) rfl rfl rfl rfl (fun _ hne => absurd rfl hne) (fun _ => hs) (by simp)
    | false =>
      refine h.goes (i := i) (w := .take) ⟨hi, by simp [hw], by simp [setWorker], rfl, rfl, rfl, rfl, fun _ _ => rfl⟩
        (by rw [hw]; rfl) rfl rfl rfl rfl (fun _ _ => trivial) (by simp) fun _ hj => ?_
      -- a thread is joined after `stop_` is set
      have hstop := h.stopped.mpr (by rw [hj]; trivial)
      rw [hs] at hstop
      cases hstop
  | @take i x q hi hw _ e => exact h.taken hi (.inl hw) e
  | @wait i hi hw hsize =>
    refine h.goes (i := i) (w := .waiting) ⟨hi, by simp [hw], rfl, rfl, rfl, rfl, rfl, fun _ _ => rfl⟩ (by rw [hw]; rfl)
      rfl rfl rfl rfl (fun hpos => ?_) (by simp) fun _ hj => h.ending i hj (.inr hw)
    omega
  | @wake i hi hw =>
    exact h.goes (i := i) (w := .woken) ⟨hi, by simp [hw], rfl, rfl, rfl, rfl, rfl, fun _ _ => rfl⟩ (by rw [hw]; rfl)
      rfl rfl rfl rfl (fun _ _ => trivial) (by simp) (by simp)
  | @interruption i hi hw _ =>
    exact h.goes (i := i) (w := .woken)
      ⟨hi, by simp [hw], rfl, rfl, rfl, rfl, rfl, fun _ hk => Function.update_of_ne hk ..⟩
      (by rw [hw]; rfl) rfl rfl rfl rfl (fun _ _ => trivial) (by simp) (by simp)
  | @resume i x q hi hw e => exact h.taken hi (.inr hw) e
  | @finish i t hi hw =>
    refine h.moves (i := i) (w := .loop) ⟨hi, by simp [hw], rfl, rfl, rfl, rfl, rfl, fun _ _ => rfl⟩ h.queue ?_
      (fun _ _ => trivial) (by simp) (by simp)
    have hrun : ((s.worker i).task?.toList ++
        { s.setWorker i .loop with executed := s.executed ++ [t] }.running).Perm _ := running_update hi rfl rfl
    rw [hw] at hrun
    calc s.started
      _ |>.Perm (s.executed ++ s.running) := h.started
      _ |>.Perm (s.executed ++ ([t] ++ _)) := hrun.symm.append_left _
      _ = s.executed ++ [t] ++ _ := (List.append_assoc ..).symm
  | @swallow i t hi hw hf =>
    have hself : s.worker = Function.update s.worker i (.call t) := by
      rw [← hw]
      exact (Function.update_eq_self ..).symm
    exact h.goes (i := i) (w := .call t)
      ⟨hi, by simp [hw], hself, rfl, rfl, rfl, rfl, fun _ hk => Function.update_of_ne hk ..⟩
      (by rw [hw]) rfl rfl rfl rfl (fun _ _ => trivial) (by simp) (by simp)
  | submit tasks =>
    exact h.aside rfl rfl rfl rfl rfl rfl rfl rfl h.queue (.inl ⟨rfl, fun hm => .inl (List.mem_append_left _ hm)⟩)
  | @add j ts n q hj e =>
    obtain ⟨ids, xs, hq, ha⟩ := h.queue
    obtain ⟨_, q', e', e⟩ := Outcome.bind_eq_ok e
    obtain ⟨-, rfl⟩ := Outcome.ok.inj e
    obtain ⟨ids', hq'⟩ := ObjectQueue.addItems_holds hq e'
    rw [← List.map_append] at hq'
    have hlt := (List.getElem?_eq_some_iff.mp hj).1
    refine h.aside rfl rfl rfl rfl rfl rfl rfl rfl ⟨ids', xs ++ ts, hq', ?_⟩ (.inr ?_)
    · show s.added ++ ts = s.started ++ (xs ++ ts)
      rw [ha, List.append_assoc]
    · exact List.mem_set hlt _
  | @notify j i hj hi hw =>
    exact h.goes (i := i) (w := .woken) ⟨hi, by simp [hw], rfl, rfl, rfl, rfl, rfl, fun _ _ => rfl⟩ (by rw [hw]; rfl)
      rfl rfl rfl rfl (fun _ _ => trivial) (by simp) (by simp)
  | @notifyNone j hj hall =>
    exact h.aside rfl rfl rfl rfl rfl rfl rfl rfl h.queue (.inl ⟨rfl, fun _ => .inr hall⟩)
  | shutdown wait hidle =>
    have hstop : ¬s.stop_ = true := fun hs => by
      have := h.stopped.mp hs
      rw [hidle] at this
      exact this
    cases wait <;>
    · exact h.shuts (fun _ => rfl) ⟨fun hs => absurd hs hstop, False.elim⟩ id (fun _ hj => hj.elim) (by simp)
  | poll hp =>
    have hstop : ¬s.stop_ = true := fun hs => by
      have := h.stopped.mp hs
      rw [hp] at this
      exact this
    have hpause : s.pause_ = true := h.pausing (by simp [hp])
    split <;>
    · exact h.shuts (fun _ => hpause) ⟨fun hs => absurd hs hstop, False.elim⟩ id (fun _ hj => hj.elim) (by simp)
  | stop hp =>
    exact h.shuts (fun _ => h.pausing (by simp [hp])) ⟨fun _ => trivial, fun _ => rfl⟩ (fun _ => rfl)
      (fun _ hj => absurd hj (Nat.not_lt_zero _)) (by simp)
  | @interrupt k hk hlt =>
    refine h.shuts (fun _ => h.pausing (by simp [hk])) ⟨fun _ => trivial, fun _ => h.stopped.mpr (by rw [hk]; trivial)⟩ id
      (fun i hi => h.joined i (by rw [hk]; exact hi)) fun k' hk' => ?_
    cases hk'
    exact ⟨hlt, fun _ => Function.update_self ..⟩
  | @join k hk hw =>
    refine h.shuts (fun _ => h.pausing (by simp [hk])) ⟨fun _ => trivial, fun _ => h.stopped.mpr (by rw [hk]; trivial)⟩ id
      (fun i hi => ?_) (by simp)
    have hi : i < k + 1 := hi
    rcases Nat.lt_succ_iff_lt_or_eq.mp hi with hi | rfl
    · exact h.joined i (by rw [hk]; exact hi)
    · exact hw
  | @joined k hk hge =>
    refine h.shuts (fun _ => h.pausing (by simp [hk])) ⟨fun _ => trivial, fun _ => h.stopped.mpr (by rw [hk]; trivial)⟩ id
      (fun i hi => h.joined i ?_) (by simp)
    have hi : i < s.threadNum_ := hi
    rw [hk]
    show i < k
    omega

theorem run_inv {n : Nat} (h : Run Step (init n) es s) : Inv s := h.inv (init_inv n) fun _ _ _ hi st => hi.step st

theorem Step.threadNum_ (st : Step s e s') : s'.threadNum_ = s.threadNum_ := by
  cases st <;> rfl

theorem run_threadNum_ {n : Nat} (h : Run Step (init n) es s) : s.threadNum_ = n :=
  h.inv (P := fun s : ExecutorService κ => s.threadNum_ = n) rfl fun _ _ _ hn st => st.threadNum_.trans hn

theorem exists_run {P : ExecutorService κ → Prop} [DecidablePred P] (es : List (Event κ))
    (h : ((es.foldlM next s).any fun s => P s) = true) : ∃ s', Run Step s es s' ∧ P s' :=
  Run.exists_of_next (fun _ _ _ => Step.of_next) es h

/-- Whatever the threads, the callers of `submit` and the call of `shutdown` do in whatever order: the tasks are
started in the order in which they were added, each once; one that was started runs, or its call has returned;
and while one waits in the queue some thread will come for it, or one is about to be notified. -/
theorem tasks_of_run {n : Nat} (h : Run Step (init n) es s) :
    (∃ ids xs, s.tasks_.Holds ids (xs.map some) ∧ s.added = s.started ++ xs) ∧
    s.started.Perm (s.executed ++ s.running) ∧
    (s.stop_ = false → 0 < s.tasks_.size_ → 0 < n →
      (∃ i < n, (s.worker i).Awake) ∨ .added ∈ s.submissions) := by
  have hi := run_inv h
  refine ⟨hi.queue, hi.started, fun hs hsize h0 => ?_⟩
  have hn := run_threadNum_ h
  rw [← hn] at h0 ⊢
  exact hi.awake hs hsize h0

/-- Both threads sleep; of two tasks that are added together one thread is notified, and the other one need not
be: the first comes back for the second task. -/
theorem tasks_of_run_two : ∃ s, Run Step (init 2) [.check 0, .take 0, .check 1, .take 1, .submit [some 7, none, some 8],
      .add 0, .notify 0 (some 1), .resume 1] s ∧
    s.worker 0 = .waiting ∧ s.started = [7] ∧ s.tasks_.size_ = 1 ∧ s.added = [7, 8] ∧
    ((∃ i < 2, (s.worker i).Awake) ∨ Submission.added ∈ s.submissions) := by
  obtain ⟨s, hr, hw, hst, hs, hz, ha⟩ := exists_run (s := init 2) (P := fun s => s.worker 0 = .waiting ∧ s.started = [7] ∧
      s.stop_ = false ∧ s.tasks_.size_ = 1 ∧ s.added = [7, 8])
    [.check 0, .take 0, .check 1, .take 1, .submit [some 7, none, some 8], .add 0, .notify 0 (some 1), .resume 1]
    (by decide +kernel)
  exact ⟨s, hr, hw, hst, hz, ha, (tasks_of_run hr).2.2 hs (by rw [hz]; decide) (by decide)⟩

/-! ## Shutting down -/

end ExecutorService

/-- How many steps a thread that is joined may still have. -/
def Worker.rank {κ : Type} : Worker κ → Nat
  | .take => 5
  | .waiting => 4
  | .woken => 3
  | .call _ => 2
  | .loop => 1
  | .done => 0

namespace ExecutorService

variable {κ : Type} {s s' : ExecutorService κ} {e : Event κ} {es : List (Event κ)} {w : Worker κ} {i k : Nat}

/-- The steps that take thread `k` on. -/
def Event.Of (k : Nat) : Event κ → Prop
  | .check i | .take i | .wake i | .interruption i | .resume i | .finish i => i = k
  | _ => False

theorem Inv.take_ok (h : Inv s) : ∃ x q, ObjectQueue.take s.tasks_ = .ok x q := by
  obtain ⟨ids, xs, hq, -⟩ := h.queue
  cases xs with
  | nil => exact ⟨_, _, if_pos (hq.size_le_zero.mpr rfl)⟩
  | cons t ts =>
    obtain ⟨q, ids', e, -⟩ := ObjectQueue.pop_ok hq
    exact ⟨_, q, (if_neg (hq.size_le_zero.not.mpr (by simp))).trans e⟩

/-- A thread that does not wait, or has an interruption pending, can go on. -/
theorem Inv.goes_on (h : Inv s) (hi : i < s.threadNum_) (hw : s.worker i ≠ .done)
    (hf : s.worker i = .waiting → s.interrupted i = true) : ∃ e s', e.Of i ∧ Step s e s' := by
  obtain ⟨x, q, e⟩ := h.take_ok
  cases hwi : s.worker i with
  | loop => exact ⟨.check i, _, rfl, .check hi hwi⟩
  | take =>
    by_cases hsize : s.tasks_.size_ ≤ 0
    · exact ⟨.take i, _, rfl, .wait hi hwi hsize⟩
    · exact ⟨.take i, _, rfl, .take hi hwi hsize e⟩
  | waiting => exact ⟨.interruption i, _, rfl, .interruption hi hwi (hf hwi)⟩
  | woken => exact ⟨.resume i, _, rfl, .resume hi hwi e⟩
  | call t => exact ⟨.finish i, _, rfl, .finish hi hwi⟩
  | done => exact absurd hwi hw

theorem rank_update {f : Nat → Worker κ} (h : w.rank < (f i).rank) :
    (Function.update f i w k).rank ≤ (f k).rank ∧ (i = k → (Function.update f i w k).rank < (f k).rank) := by
  by_cases hk : k = i
  · subst hk
    rw [Function.update_self]
    exact ⟨Nat.le_of_lt h, fun _ => h⟩
  · rw [Function.update_of_ne hk]
    exact ⟨Nat.le_refl _, fun e => absurd e.symm hk⟩

theorem rank_taken {x : Option κ} : ((x.map Worker.call).getD .loop).rank < 3 := by
  cases x <;> simp [Worker.rank]

/-- Once `stop_` is set, a thread only goes on towards its end. -/
theorem rank_step (hs : s.stop_ = true) (st : Step s e s') :
    (s'.worker k).rank ≤ (s.worker k).rank ∧ (e.Of k → (s'.worker k).rank < (s.worker k).rank) := by
  have stays : s'.worker = s.worker → ¬e.Of k →
      (s'.worker k).rank ≤ (s.worker k).rank ∧ (e.Of k → (s'.worker k).rank < (s.worker k).rank) := fun hw hne =>
    ⟨Nat.le_of_eq (by rw [hw]), fun ho => absurd ho hne⟩
  cases st with
  | @check i hi hw =>
    rw [hs, if_pos rfl]
    exact rank_update (by simp [hw, Worker.rank])
  | @take i x q hi hw _ _ =>
    exact rank_update (by rw [hw]; exact Nat.lt_trans rank_taken (Nat.lt_add_of_pos_right Nat.two_pos))
  | @wait i hi hw _ => exact rank_update (by simp [hw, Worker.rank])
  | @wake i hi hw => exact rank_update (by simp [hw, Worker.rank])
  | @interruption i hi hw _ => exact rank_update (by simp [hw, Worker.rank])
  | @resume i x q hi hw _ => exact rank_update (by rw [hw]; exact rank_taken)
  | @finish i t hi hw => exact rank_update (by rw [hw]; exact Nat.one_lt_two)
  | @notify j i _ hi hw =>
    exact ⟨(rank_update (f := s.worker) (i := i) (w := .woken) (by simp [hw, Worker.rank])).1, fun ho => ho.elim⟩
  | swallow | submit | add | notifyNone | shutdown | poll | stop | interrupt | join | joined => exact stays rfl id

/-- `join()` returns: the thread that is joined can always go on, up to the end of its task, and ends after
five steps of its own, whatever the others do. -/
theorem join_ends {n : Nat} (h : Run Step (init n) es s) (hj : s.shutdown = .joining k) :
    (s.worker k ≠ .done → ∃ e s', e.Of k ∧ Step s e s') ∧ (s.worker k).rank ≤ 5 ∧
    ((s.worker k).rank = 0 ↔ s.worker k = .done) ∧
    ∀ e s', Step s e s' → (s'.worker k).rank ≤ (s.worker k).rank ∧ (e.Of k → (s'.worker k).rank < (s.worker k).rank) := by
  have hi := run_inv h
  have hs := hi.stopped.mpr (by rw [hj]; trivial)
  refine ⟨fun hne => hi.goes_on (hi.joining_lt k hj) hne fun hw => hi.ending k hj (.inl hw), ?_, ?_,
    fun e s' st => rank_step hs st⟩
  · cases s.worker k <;> simp [Worker.rank]
  · cases s.worker k <;> simp [Worker.rank]

/-- The thread waits when it is interrupted. -/
theorem join_ends_waiting : ∃ s : ExecutorService Nat, Run Step (init 1) [.check 0, .take 0, .shutdown true, .poll, .stop,
      .interrupt] s ∧ s.worker 0 = .waiting ∧ ∃ e s', e.Of 0 ∧ Step s e s' := by
  obtain ⟨s, hr, hj, hw⟩ := exists_run (s := (init 1 : ExecutorService Nat))
    (P := fun s => s.shutdown = .joining 0 ∧ s.worker 0 = .waiting)
    [.check 0, .take 0, .shutdown true, .poll, .stop, .interrupt] (by decide +kernel)
  exact ⟨s, hr, hw, (join_ends hr hj).1 (by rw [hw]; decide)⟩

theorem Step.started_prefix (st : Step s e s') : s.started <+: s'.started := by
  cases st with
  | take | resume => exact List.prefix_append _ _
  | check | wait | wake | interruption | finish | swallow | submit | add | notify | notifyNone | shutdown | poll | stop
    | interrupt | join | joined => exact List.prefix_refl _

/-- Nothing is in the queue, and no call of `submit` is going to add to it. -/
structure Quiet (s : ExecutorService κ) (ts : List κ) : Prop where
  pause_ : s.pause_ = true
  submissions : ∀ x ∈ s.submissions, ∀ us, x ≠ .checked us
  added : s.added = ts
  started : s.started = ts

theorem Quiet.set {ts : List κ} {j : Nat} (h : s.Quiet ts) {x : Submission κ} (hx : ∀ us, x ≠ .checked us) :
    ∀ y ∈ (s.setSubmission j x).submissions, ∀ us, y ≠ .checked us := fun y hy => by
  rcases List.mem_or_eq_of_mem_set hy with hy | rfl
  · exact h.submissions y hy
  · exact hx

theorem Quiet.taken {ts : List κ} (h : s.Quiet ts) (hi : Inv s) {x : Option κ} {q : ObjectQueue (Option κ)}
    (e : ObjectQueue.take s.tasks_ = .ok x q) : (s.taken i x q).Quiet ts := by
  obtain ⟨_, xs, -, ha⟩ := hi.take_eq e
  rw [h.added, h.started, List.append_assoc] at ha
  have hnil : x.toList = [] := (List.append_eq_nil_iff.mp (List.append_cancel_left ((List.append_nil _).trans ha)).symm).1
  refine ⟨h.pause_, h.submissions, h.added, ?_⟩
  show s.started ++ x.toList = ts
  rw [hnil, List.append_nil, h.started]

theorem Quiet.step {ts : List κ} (h : s.Quiet ts) (hi : Inv s) (st : Step s e s') : s'.Quiet ts := by
  cases st with
  | take _ _ _ e => exact h.taken hi e
  | resume _ _ e => exact h.taken hi e
  | submit tasks =>
    refine ⟨h.pause_, fun y hy => ?_, h.added, h.started⟩
    rcases List.mem_append.mp hy with hy | hy
    · exact h.submissions y hy
    · rw [List.mem_singleton.mp hy, h.pause_, Bool.true_or, if_pos rfl]
      simp
  | add hj _ => exact absurd rfl (h.submissions _ (List.mem_of_getElem? hj) _)
  | notify => exact ⟨h.pause_, h.set (by simp), h.added, h.started⟩
  | notifyNone => exact ⟨h.pause_, h.set (by simp), h.added, h.started⟩
  | shutdown => exact ⟨rfl, h.submissions, h.added, h.started⟩
  | check | wait | wake | interruption | finish | swallow | poll | stop | interrupt | join | joined =>
    exact ⟨h.pause_, h.submissions, h.added, h.started⟩

theorem running_eq_nil (h : ∀ i < s.threadNum_, s.worker i = .done) : s.running = [] :=
  List.filterMap_eq_nil_iff.mpr fun i hi => by rw [h i (List.mem_range.mp hi)]; rfl

/-- `shutdown(true)` sees an empty queue in `s₁`, and returns in `s`: all threads have ended, the tasks they have
started are done, among them all that were added before; and if no call of `submit` had looked at `pause_`
before it was set and added its tasks later, that is all. -/
theorem shutdown_completes {n : Nat} {es₁ : List (Event κ)} {s₁ : ExecutorService κ} (h₁ : Run Step (init n) es₁ s₁)
    (hp : s₁.shutdown = .polling) (h0 : ¬s₁.tasks_.size_ > 0) (h : Run Step s₁ es s) (hr : s.shutdown = .returned) :
    (∀ i < n, s.worker i = .done) ∧ s.started.Perm s.executed ∧ s₁.added <+: s.started ∧
    ((∀ x ∈ s₁.submissions, ∀ ts, x ≠ .checked ts) → s.executed.Perm s.added ∧ s.added = s₁.added ∧ s.tasks_.size_ = 0) := by
  have hi₁ := run_inv h₁
  have hi := run_inv (h₁.append h)
  have hn := run_threadNum_ (h₁.append h)
  have hdone : ∀ i < s.threadNum_, s.worker i = .done := fun i hlt => hi.joined i (by rw [hr]; exact hlt)
  have hst : s.started.Perm s.executed := by
    have := hi.started
    rwa [running_eq_nil hdone, List.append_nil] at this
  obtain ⟨ids, xs, hq, ha⟩ := hi₁.queue
  have hxs : xs = [] := by simpa using hq.size_le_zero.mp (Int.not_lt.mp h0)
  rw [hxs, List.append_nil] at ha
  refine ⟨hn ▸ hdone, hst, ?_, fun hsub => ?_⟩
  · rw [ha]
    exact h.inv (P := fun s => s₁.started <+: s.started) (List.prefix_refl _) fun _ _ _ hpre st =>
      hpre.trans st.started_prefix
  · have hquiet : s.Quiet s₁.added := by
      refine (h.inv (P := fun s => Inv s ∧ s.Quiet s₁.added) ⟨hi₁, hi₁.pausing (by simp [hp]), hsub, rfl, ha.symm⟩ ?_).2
      rintro t e u ⟨hi, hquiet⟩ st
      exact ⟨hi.step st, hquiet.step hi st⟩
    obtain ⟨ids', xs', hq', ha'⟩ := hi.queue
    rw [hquiet.added, hquiet.started] at ha'
    have hnil : xs' = [] := (List.append_cancel_left ((List.append_nil _).trans ha')).symm
    refine ⟨?_, hquiet.added, ?_⟩
    · rw [hquiet.added, ← hquiet.started]
      exact hst.symm
    · rw [hq'.size_, hnil]
      rfl

/-- A task is added and taken while the only thread sleeps, and `shutdown` waits for it. -/
theorem shutdown_completes_one : ∃ s₁ s : ExecutorService Nat, Run Step (init 1) [.check 0, .take 0, .submit [some 7],
      .add 0, .notify 0 (some 0), .shutdown true, .poll, .resume 0] s₁ ∧
    Run Step s₁ [.poll, .stop, .interrupt, .finish 0, .check 0, .join, .join] s ∧
    s.worker 0 = .done ∧ s.started = [7] ∧ s.executed.Perm s.added ∧ s.tasks_.size_ = 0 := by
  obtain ⟨s₁, h₁, hp, hz, hsub, he⟩ := exists_run (s := (init 1 : ExecutorService Nat))
    (P := fun s => s.shutdown = .polling ∧ ¬s.tasks_.size_ > 0 ∧ s.submissions = [.returned true] ∧
      ((([.poll, .stop, .interrupt, .finish 0, .check 0, .join, .join] : List (Event Nat)).foldlM next s).any fun s =>
        s.shutdown = .returned ∧ s.started = [7]) = true)
    [.check 0, .take 0, .submit [some 7], .add 0, .notify 0 (some 0), .shutdown true, .poll, .resume 0]
    (by decide +kernel)
  obtain ⟨s, h, hr, hs⟩ := exists_run (P := fun s => s.shutdown = .returned ∧ s.started = [7]) _ he
  obtain ⟨hw, -, -, hall⟩ := shutdown_completes h₁ hp hz h hr
  obtain ⟨hex, -, hsize⟩ := hall (by simp [hsub])
  exact ⟨s₁, s, h₁, h, hw 0 Nat.one_pos, hs, hex, hsize⟩

/-- A call of `submit` that looked at `pause_` before it was set returns `true`, and its task is never started. -/
theorem exists_task_lost : ∃ s : ExecutorService Nat, Run Step (init 1) [.submit [some 7], .shutdown true, .poll, .stop,
      .interrupt, .check 0, .add 0, .notify 0 none, .join, .join] s ∧
    s.shutdown = .returned ∧ s.submissions = [.returned true] ∧ s.added = [7] ∧ s.started = [] :=
  exists_run _ (by decide +kernel)

end ExecutorService

end Nio.Concurrent
