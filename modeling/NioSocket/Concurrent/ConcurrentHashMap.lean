import Mathlib.Data.List.AList
import Mathlib.Data.List.Basic
import NioSocket.Lib.Linearizable
import NioSocket.Lib.MachineInt
import NioSocket.Lib.Threads

/-!
# The concurrent hash map

`ConcurrentHashMap`: a key belongs to one of the segments, each a `std::map` under a lock that readers
share, and the number of entries is kept in a counter that is changed after the segment is unlocked. A
thread that calls a function takes the lock, reads the segment, puts back what its call leaves of that,
unlocks it, and counts, and the steps of the threads are interleaved in any way. `size()` reads the counter.

It is the lock that makes a call of this: what a thread has read is there still when it puts back
(`Reads`), since one that writes is alone in its segment (`exclusive_of_run`).
-/

namespace Nio.Concurrent

/-- A call on the entries. -/
inductive MapCall (K V : Type)
  | insert (key : K) (val : V)
  | get (key : K)
  | erase (key : K)
  deriving DecidableEq

/-- What it returns: a `bool`, or what was found, with a `bool`. -/
inductive MapResult (V : Type)
  | flag (b : Bool)
  | found (val : V) (b : Bool)
  deriving DecidableEq

/-- A segment, and how its lock is held. -/
structure Segment (K V : Type) where
  map_ : AList fun _ : K => V
  /-- `lock_` is held by a `WriteLock`. -/
  exclusive : Bool
  /-- So many `ReadLock`s hold `lock_`. -/
  shared : Nat

/-- The data members of a `ConcurrentHashMap`. -/
structure ConcurrentHashMap (K V : Type) where
  capacity_ : Int
  buckets_ : List (Segment K V)
  counts_ : Int
  hasher_ : K → BitVec 64

variable {K V : Type}

namespace MapCall

/-- The key that a call is about. -/
def key : MapCall K V → K
  | insert key _ | get key | erase key => key

/-- The call takes a `WriteLock`. -/
def writes : MapCall K V → Bool
  | get _ => false
  | _ => true

/-- What the call adds to `counts_`, having returned `ret` from the segment. -/
def counted : MapCall K V → MapResult V → Int
  | insert .., .flag true => 1
  | erase _, .flag true => -1
  | _, _ => 0

end MapCall

namespace Segment

variable [DecidableEq K] [Inhabited V]

/-- A segment without entries. -/
def new : Segment K V := ⟨∅, false, 0⟩

/-- `map_.insert(std::make_pair(key, val)).second`: an entry that is there stays. -/
def insert (key : K) (val : V) (s : Segment K V) : Bool × Segment K V :=
  if key ∈ s.map_ then (false, s) else (true, { s with map_ := s.map_.insert key val })

/-- What `map_.find(key)` finds. -/
def get (key : K) (s : Segment K V) : V × Bool :=
  match s.map_.lookup key with
  | some val => (val, true)
  | none => (default, false)

/-- `map_.erase(key) > 0`. -/
def erase (key : K) (s : Segment K V) : Bool × Segment K V :=
  (decide (key ∈ s.map_), { s with map_ := s.map_.erase key })

/-- `map_.size()`. -/
def size (s : Segment K V) : Nat := s.map_.keys.length

/-- What a call does in a segment that it has to itself. -/
def run (op : MapCall K V) (s : Segment K V) : MapResult V × Segment K V :=
  match op with
  | .insert key val => (.flag (s.insert key val).1, (s.insert key val).2)
  | .get key => (.found (s.get key).1 (s.get key).2, s)
  | .erase key => (.flag (s.erase key).1, (s.erase key).2)

/-- What a call does in a segment of which it has read the entries `seen`: it goes by these, and one that writes puts
back what it leaves of them. -/
def putBack (op : MapCall K V) (seen : AList fun _ : K => V) (s : Segment K V) : MapResult V × Segment K V :=
  let (ret, left) := run op { s with map_ := seen }
  (ret, if op.writes then left else s)

/-- A lock can be taken. -/
def Free (writes : Bool) (s : Segment K V) : Prop := s.exclusive = false ∧ (writes = true → s.shared = 0)

instance (writes : Bool) (s : Segment K V) : Decidable (s.Free writes) := inferInstanceAs (Decidable (_ ∧ _))

/-- `WriteLock wrLock(lock_)` or `ReadLock rdLock(lock_)`. -/
def lock (writes : Bool) (s : Segment K V) : Segment K V :=
  if writes then { s with exclusive := true } else { s with shared := s.shared + 1 }

/-- What the destructor of the lock does. -/
def unlock (writes : Bool) (s : Segment K V) : Segment K V :=
  if writes then { s with exclusive := false } else { s with shared := s.shared - 1 }

end Segment

namespace ConcurrentHashMap

/-- `ConcurrentHashMap(initCapcity, hasher)`. -/
def new (initCapcity : Int) (hasher : K → BitVec 64) : ConcurrentHashMap K V :=
  ⟨initCapcity, List.replicate initCapcity.toNat .new, 0, hasher⟩

/-- `spread(key)`. -/
def spread (m : ConcurrentHashMap K V) (key : K) : BitVec 64 :=
  let h := m.hasher_ key
  (h ^^^ (h >>> 16)) &&& 0x7fffffff#64

/-- The `i` of `getBucket(key)`. -/
def getBucket (m : ConcurrentHashMap K V) (key : K) : Nat := (BitVec.ofInt 64 (m.capacity_ - 1) &&& m.spread key).toNat

/-- The segment of a key changes. -/
def change (m : ConcurrentHashMap K V) (key : K) (f : Segment K V → Segment K V) : ConcurrentHashMap K V :=
  { m with buckets_ := m.buckets_.modify (m.getBucket key) f }

/-- What is at the key. -/
def content [DecidableEq K] (m : ConcurrentHashMap K V) (key : K) : Option V :=
  m.buckets_[m.getBucket key]?.bind fun s => s.map_.lookup key

/-- How many entries there are. -/
def entries (m : ConcurrentHashMap K V) : Nat := (m.buckets_.map Segment.size).sum

end ConcurrentHashMap

/-- What a thread is at. -/
inductive MapPhase (K V : Type)
  | idle
  | called (op : MapCall K V)
  /-- The thread holds the lock of the segment. -/
  | locked (op : MapCall K V)
  /-- It still does, and has read these entries. -/
  | loaded (op : MapCall K V) (seen : AList fun _ : K => V)
  /-- It still does, and what the call leaves has been put back. -/
  | applied (op : MapCall K V) (ret : MapResult V)
  /-- The segment is unlocked, and `counts_` is still to be changed. -/
  | unlocked (op : MapCall K V) (ret : MapResult V)
  | done (ret : MapResult V)
  | sizing
  | sized (n : Int)
  deriving DecidableEq

/-- A step of a thread. -/
inductive MapAct (K V : Type)
  | call (op : MapCall K V)
  | lock
  | load
  | run
  | unlock
  | count
  | ret (ret : MapResult V)
  /-- `size()` is called. -/
  | size
  | read
  | sized (n : Int)
  deriving DecidableEq

/-- A map that one thread uses, as the keys it has and what is at them. -/
def mapSpec [DecidableEq K] [Inhabited V] : Sequential (K → Option V) (MapCall K V) (MapResult V)
  | m, .insert key val =>
    if (m key).isSome then (.flag false, m) else (.flag true, Function.update m key (some val))
  | m, .get key => (.found ((m key).getD default) (m key).isSome, m)
  | m, .erase key => (.flag (m key).isSome, Function.update m key none)

/-! ## Segments -/

namespace ConcurrentHashMap

variable {m : ConcurrentHashMap K V} {s : Segment K V} {key : K} {f : Segment K V → Segment K V}

theorem lock_map_ (writes : Bool) (s : Segment K V) : (s.lock writes).map_ = s.map_ := by
  cases writes <;> rfl

theorem unlock_map_ (writes : Bool) (s : Segment K V) : (s.unlock writes).map_ = s.map_ := by
  cases writes <;> rfl

/-- The lock of a segment is held as often as it says, by one that writes or by some that read. -/
structure LockOk (held : Bool → Nat) (s : Segment K V) : Prop where
  exclusive : held true = s.exclusive.toNat
  shared : held false = s.shared
  disjoint : s.exclusive = true → s.shared = 0

/-- One that writes is alone. -/
theorem LockOk.alone {held : Bool → Nat} (h : LockOk held s) (hp : 0 < held true) : held true = 1 ∧ held false = 0 := by
  rw [h.exclusive] at hp ⊢
  rw [h.shared]
  cases he : s.exclusive with
  | true => exact ⟨rfl, h.disjoint he⟩
  | false => simp [he] at hp

theorem LockOk.congr {held held' : Bool → Nat} {s' : Segment K V} (h : LockOk held s) (hh : ∀ b, held' b = held b)
    (he : s'.exclusive = s.exclusive) (hs : s'.shared = s.shared) : LockOk held' s' :=
  ⟨by rw [hh, he, h.exclusive], by rw [hh, hs, h.shared], by rw [he, hs]; exact h.disjoint⟩

theorem LockOk.lock {held held' : Bool → Nat} {writes : Bool} (h : LockOk held s) (hf : s.Free writes)
    (hh : ∀ b, held' b = held b + if b = writes then 1 else 0) : LockOk held' (s.lock writes) := by
  have h₁ := h.exclusive
  have h₂ := h.shared
  rw [hf.1] at h₁
  cases writes with
  | true => exact ⟨by simp [hh, h₁, Segment.lock], by simp [hh, h₂, Segment.lock], fun _ => hf.2 rfl⟩
  | false =>
    exact ⟨by simp [hh, h₁, hf.1, Segment.lock], by simp [hh, h₂, Segment.lock], fun he => by
      simp [Segment.lock, hf.1] at he⟩

theorem LockOk.unlock {held held' : Bool → Nat} {writes : Bool} (h : LockOk held s)
    (hh : ∀ b, held b = held' b + if b = writes then 1 else 0) : LockOk held' (s.unlock writes) := by
  have h₁ := h.exclusive
  have h₂ := h.shared
  rw [hh] at h₁ h₂
  have hd := h.disjoint
  cases writes with
  | true =>
    cases he : s.exclusive with
    | true =>
      refine ⟨?_, by simpa [Segment.unlock] using h₂, fun hc => by simp [Segment.unlock] at hc⟩
      simpa [he, Segment.unlock] using h₁
    | false => simp [he] at h₁
  | false =>
    cases he : s.exclusive with
    | true => simp [hd he] at h₂
    | false =>
      refine ⟨by simpa [he, Segment.unlock] using h₁, ?_, fun hc => by simp [Segment.unlock, he] at hc⟩
      simp only [if_true] at h₂
      simp only [Segment.unlock, Bool.false_eq_true, if_false]
      omega

theorem getElem?_change (m : ConcurrentHashMap K V) (key : K) (f : Segment K V → Segment K V) (j : Nat) :
    (m.change key f).buckets_[j]? = m.buckets_[j]?.map fun s => if m.getBucket key = j then f s else s :=
  List.getElem?_modify ..

theorem entries_change (hs : m.buckets_[m.getBucket key]? = some s) :
    ((m.change key f).entries : Int) = m.entries + ((f s).size - s.size : Int) := by
  obtain ⟨hlt, rfl⟩ := List.getElem?_eq_some_iff.mp hs
  have hl : m.buckets_ = m.buckets_.take (m.getBucket key) ++
      m.buckets_[m.getBucket key] :: m.buckets_.drop (m.getBucket key + 1) := by simp
  have h₁ : m.entries = _ := congrArg (fun l => (l.map Segment.size).sum) hl
  have h₂ : (m.change key f).entries = _ :=
    congrArg (fun l => (l.map Segment.size).sum) (List.modify_eq_take_cons_drop hlt)
  simp only [List.map_append, List.map_cons, List.sum_append, List.sum_cons] at h₁ h₂
  omega

theorem entries_change_same (hf : ∀ s, (f s).map_ = s.map_) : (m.change key f).entries = m.entries := by
  have hsize : ∀ s : Segment K V, (f s).size = s.size := fun s => by rw [Segment.size, hf, Segment.size]
  rw [entries, entries]
  congr 1
  apply List.ext_getElem?
  intro j
  rw [List.getElem?_map, List.getElem?_map, getElem?_change, Option.map_map]
  congr 1
  funext s
  simp only [Function.comp_apply]
  split
  · exact hsize s
  · rfl

variable [DecidableEq K]

theorem content_change_apply (k : K) : (m.change key f).content k =
    m.buckets_[m.getBucket k]?.bind fun s => (if m.getBucket key = m.getBucket k then f s else s).map_.lookup k := by
  rw [content, show (m.change key f).getBucket k = m.getBucket k from rfl, getElem?_change]
  cases m.buckets_[m.getBucket k]? <;> rfl

/-- A segment that has the same entries as before. -/
theorem content_change (hf : ∀ s, (f s).map_ = s.map_) : (m.change key f).content = m.content := by
  funext k
  rw [content_change_apply, content]
  congr 1
  funext s
  split
  · rw [hf]
  · rfl

theorem content_eq (hs : m.buckets_[m.getBucket key]? = some s) : m.content key = s.map_.lookup key := by
  rw [content, hs, Option.bind_some]

/-- A segment that has something else at a key. -/
theorem content_update {v : Option V} (hs : m.buckets_[m.getBucket key]? = some s) (hk : (f s).map_.lookup key = v)
    (hf : ∀ k, k ≠ key → (f s).map_.lookup k = s.map_.lookup k) :
    (m.change key f).content = Function.update m.content key v := by
  funext k
  rw [content_change_apply]
  by_cases hkey : k = key
  · subst hkey
    rw [Function.update_self, hs, Option.bind_some, if_pos rfl, hk]
  · rw [Function.update_of_ne hkey, content]
    by_cases hb : m.getBucket key = m.getBucket k
    · rw [← hb, hs, Option.bind_some, Option.bind_some, if_pos rfl, hf k hkey]
    · simp only [if_neg hb]

variable [Inhabited V] {op : MapCall K V}

/-- A call does in its segment what it should. -/
theorem run_eq (hs : m.buckets_[m.getBucket op.key]? = some s) :
    mapSpec m.content op = ((s.run op).1, (m.change op.key fun s => (s.run op).2).content) := by
  cases op with
  | insert key val =>
    have hs : m.buckets_[m.getBucket key]? = some s := hs
    have hc := content_eq hs
    by_cases hk : key ∈ s.map_
    · have hi : s.insert key val = (false, s) := if_pos hk
      have hsome : (m.content key).isSome = true := hc ▸ AList.lookup_isSome.mpr hk
      have hu := content_update (f := fun s => (s.insert key val).2) (v := m.content key) hs
        (by rw [hi, hc]) fun k _ => by rw [hi]
      rw [Function.update_eq_self] at hu
      show (if (m.content key).isSome then _ else _) = _
      rw [if_pos hsome, Segment.run, hi]
      exact congrArg (Prod.mk _) hu.symm
    · have hi : s.insert key val = (true, { s with map_ := s.map_.insert key val }) := if_neg hk
      have hnone : ¬(m.content key).isSome = true := by rwa [hc, AList.lookup_isSome]
      have hu := content_update (f := fun s => (s.insert key val).2) (v := some val) hs
        (by rw [hi]; exact AList.lookup_insert _) fun k hk => by rw [hi]; exact AList.lookup_insert_ne hk
      show (if (m.content key).isSome then _ else _) = _
      rw [if_neg hnone, Segment.run, hi]
      exact congrArg (Prod.mk _) hu.symm
  | get key =>
    have hs : m.buckets_[m.getBucket key]? = some s := hs
    have hc := content_eq hs
    have hu : (m.change key fun s => s).content = m.content := content_change fun _ => rfl
    show (MapResult.found ((m.content key).getD default) (m.content key).isSome, m.content) = _
    rw [Segment.run, Segment.get, hc]
    cases s.map_.lookup key <;> exact congrArg (Prod.mk _) hu.symm
  | erase key =>
    have hs : m.buckets_[m.getBucket key]? = some s := hs
    have hc := content_eq hs
    have hu := content_update (f := fun s => (s.erase key).2) (v := none) hs (AList.lookup_erase ..)
      fun k hk => AList.lookup_erase_ne hk
    show (MapResult.flag (m.content key).isSome, Function.update m.content key none) = _
    have hb : (m.content key).isSome = decide (key ∈ s.map_) := by
      rw [hc, Bool.eq_iff_iff, AList.lookup_isSome, decide_eq_true_iff]
    rw [hb, ← hu]
    rfl

theorem size_run (op : MapCall K V) (s : Segment K V) :
    ((s.run op).2.size : Int) = s.size + op.counted (s.run op).1 := by
  cases op with
  | insert key val =>
    by_cases hk : key ∈ s.map_
    · have hi : s.insert key val = (false, s) := if_pos hk
      simp [Segment.run, hi, MapCall.counted]
    · have hi : s.insert key val = (true, { s with map_ := s.map_.insert key val }) := if_neg hk
      have hk' : key ∉ s.map_.keys := hk
      simp [Segment.run, hi, MapCall.counted, Segment.size, AList.keys_insert, List.erase_of_not_mem hk']
  | get key => simp [Segment.run, MapCall.counted]
  | erase key =>
    by_cases hk : key ∈ s.map_
    · have hpos := List.length_pos_of_mem (AList.mem_keys.mp hk)
      simp only [Segment.run, Segment.erase, hk, decide_true, MapCall.counted, Segment.size, AList.keys_erase,
        List.length_erase_of_mem (AList.mem_keys.mp hk)]
      omega
    · have hk' : key ∉ s.map_.keys := hk
      simp [Segment.run, Segment.erase, hk, MapCall.counted, Segment.size, AList.keys_erase,
        List.erase_of_not_mem hk']

end ConcurrentHashMap

namespace ConcurrentHashMap

/-- What a step is for a map whose calls have their effect at one point: where what they leave is put back. Calls
of `size()` are left out. -/
def atomic : Nat × MapAct K V → List (AtomicEvent (MapCall K V) (MapResult V))
  | (i, .call op) => [.call i op]
  | (i, .run) => [.point i]
  | (i, .ret ret) => [.ret i ret]
  | _ => []

/-- What a thread is at, of a call that has its effect at one point. -/
def phase : MapPhase K V → CallPhase (MapCall K V) (MapResult V)
  | .called op | .locked op | .loaded op _ => .called op
  | .applied _ ret | .unlocked _ ret | .done ret => .done ret
  | _ => .idle

/-- What the threads are at. -/
def phases (ts : List (MapPhase K V)) (i : Nat) : CallPhase (MapCall K V) (MapResult V) := (ts[i]?.map phase).getD .idle

theorem phases_length (xs ys : List (MapPhase K V)) (t : MapPhase K V) :
    phases (xs ++ t :: ys) xs.length = phase t := by
  simp [phases]

theorem phases_update (xs ys : List (MapPhase K V)) (t t' : MapPhase K V) :
    phases (xs ++ t' :: ys) = Function.update (phases (xs ++ t :: ys)) xs.length (phase t') := by
  funext i
  by_cases hi : i = xs.length
  · subst hi
    rw [Function.update_self, phases_length]
  · rw [Function.update_of_ne hi]
    rcases Nat.lt_or_gt_of_ne hi with h | h
    · simp [phases, List.getElem?_append_left h]
    · obtain ⟨k, hk⟩ : ∃ k, i - xs.length = k + 1 := ⟨i - xs.length - 1, by omega⟩
      simp [phases, List.getElem?_append_right (Nat.le_of_lt h), hk]

/-! ## Threads -/

section

variable [DecidableEq K] [Inhabited V]

/-- What a thread does in a step. A segment that is not there must not be used. -/
inductive Acts : MapAct K V → ConcurrentHashMap K V → MapPhase K V → ConcurrentHashMap K V → MapPhase K V → Prop
  | call (op : MapCall K V) (m : ConcurrentHashMap K V) : Acts (.call op) m .idle m (.called op)
  | lock {op : MapCall K V} {m : ConcurrentHashMap K V} {s : Segment K V} :
      m.buckets_[m.getBucket op.key]? = some s → s.Free op.writes →
      Acts .lock m (.called op) (m.change op.key (·.lock op.writes)) (.locked op)
  | load {op : MapCall K V} {m : ConcurrentHashMap K V} {s : Segment K V} :
      m.buckets_[m.getBucket op.key]? = some s → Acts .load m (.locked op) m (.loaded op s.map_)
  | run {op : MapCall K V} {m : ConcurrentHashMap K V} {s : Segment K V} {seen : AList fun _ : K => V} :
      m.buckets_[m.getBucket op.key]? = some s →
      Acts .run m (.loaded op seen) (m.change op.key fun s => (s.putBack op seen).2)
        (.applied op (s.putBack op seen).1)
  | unlock (op : MapCall K V) (ret : MapResult V) (m : ConcurrentHashMap K V) :
      Acts .unlock m (.applied op ret) (m.change op.key (·.unlock op.writes))
        (if op.counted ret = 0 then .done ret else .unlocked op ret)
  | count (op : MapCall K V) (ret : MapResult V) (m : ConcurrentHashMap K V) :
      Acts .count m (.unlocked op ret) { m with counts_ := i32 (m.counts_ + op.counted ret) } (.done ret)
  | ret (ret : MapResult V) (m : ConcurrentHashMap K V) : Acts (.ret ret) m (.done ret) m .idle
  | size (m : ConcurrentHashMap K V) : Acts .size m .idle m .sizing
  | read (m : ConcurrentHashMap K V) : Acts .read m .sizing m (.sized m.counts_)
  | sized (n : Int) (m : ConcurrentHashMap K V) : Acts (.sized n) m (.sized n) m .idle

/-- Some threads, and the map that they use. -/
abbrev System (K V : Type) := Threads (ConcurrentHashMap K V) (MapPhase K V)

/-- So many threads, and a map that none of them has used. -/
def start (threads : Nat) (initCapcity : Int) (hasher : K → BitVec 64) : System K V :=
  ⟨new initCapcity hasher, List.replicate threads .idle⟩

/-- One of the threads does something. -/
inductive Step : System K V → Nat × MapAct K V → System K V → Prop
  | mk {a : MapAct K V} {m m' : ConcurrentHashMap K V} {t t' : MapPhase K V} {xs ys : List (MapPhase K V)} :
      Acts a m t m' t' → Step ⟨m, xs ++ t :: ys⟩ (xs.length, a) ⟨m', xs ++ t' :: ys⟩

end

variable {m m' : ConcurrentHashMap K V} {s : Segment K V} {t t' : MapPhase K V} {a : MapAct K V} {op : MapCall K V}
  {w w' w₀ : System K V} {xs ys : List (MapPhase K V)} {es : List (Nat × MapAct K V)} {n : Nat} {initCapcity : Int}
  {hasher : K → BitVec 64}

/-! Runs that compute -/

section

variable [DecidableEq K] [Inhabited V] [DecidableEq V]

/-- What a thread does in a step, computed. -/
def act : MapAct K V → ConcurrentHashMap K V → MapPhase K V → Option (ConcurrentHashMap K V × MapPhase K V)
  | .call op, m, .idle => some (m, .called op)
  | .lock, m, .called op => do
    let s ← m.buckets_[m.getBucket op.key]?
    if s.Free op.writes then some (m.change op.key (·.lock op.writes), .locked op) else none
  | .load, m, .locked op => do
    let s ← m.buckets_[m.getBucket op.key]?
    some (m, .loaded op s.map_)
  | .run, m, .loaded op seen => do
    let s ← m.buckets_[m.getBucket op.key]?
    some (m.change op.key fun s => (s.putBack op seen).2, .applied op (s.putBack op seen).1)
  | .unlock, m, .applied op ret =>
    some (m.change op.key (·.unlock op.writes), if op.counted ret = 0 then .done ret else .unlocked op ret)
  | .count, m, .unlocked op ret => some ({ m with counts_ := i32 (m.counts_ + op.counted ret) }, .done ret)
  | .ret ret, m, .done ret' => if ret = ret' then some (m, .idle) else none
  | .size, m, .idle => some (m, .sizing)
  | .read, m, .sizing => some (m, .sized m.counts_)
  | .sized n, m, .sized n' => if n = n' then some (m, .idle) else none
  | _, _, _ => none

theorem acts_of_act (h : act a m t = some (m', t')) : Acts a m t m' t' := by
  unfold act at h
  split at h
  · cases h; exact .call ..
  · obtain ⟨s, hs, h⟩ := Option.bind_eq_some_iff.mp h
    split at h
    · cases h; exact .lock hs ‹_›
    · cases h
  · obtain ⟨s, hs, h⟩ := Option.bind_eq_some_iff.mp h
    cases h
    exact .load hs
  · obtain ⟨s, hs, h⟩ := Option.bind_eq_some_iff.mp h
    cases h
    exact .run hs
  · cases h; exact .unlock ..
  · cases h; exact .count ..
  · split at h
    · cases h; subst_vars; exact .ret ..
    · cases h
  · cases h; exact .size ..
  · cases h; exact .read ..
  · split at h
    · cases h; subst_vars; exact .sized ..
    · cases h
  · cases h

/-- A step of a thread, computed. -/
def next (w : System K V) (e : Nat × MapAct K V) : Option (System K V) := Threads.next (act e.2) w e.1

theorem step_of_next {e : Nat × MapAct K V} (h : next w e = some w') : Step w e w' := by
  obtain ⟨i, a⟩ := e
  have hs : Threads.Step (act a) w i w' := Threads.Step.of_next h
  cases hs with
  | mk hs => exact .mk (acts_of_act hs)

theorem exists_run {P : System K V → Prop} [DecidablePred P] (w : System K V) (es : List (Nat × MapAct K V))
    (h : ((es.foldlM next w).any fun w => P w) = true) : ∃ w', Run Step w es w' ∧ P w' :=
  Run.exists_of_next (fun _ _ _ => step_of_next) es h

end

/-! ## Locking -/

/-- Whether a thread holds the lock of the segment `j`, to write or to read. -/
def holds (m : ConcurrentHashMap K V) (j : Nat) (writes : Bool) : MapPhase K V → Nat
  | .locked op | .loaded op _ | .applied op _ => if m.getBucket op.key = j ∧ op.writes = writes then 1 else 0
  | _ => 0

theorem holds_congr (h : ∀ key, m'.getBucket key = m.getBucket key) (j : Nat) (writes : Bool) :
    holds m' j writes = holds m j writes := by
  funext t
  cases t <;> simp only [holds, h]

/-- The locks are held as the threads hold them. -/
def Locks (w : System K V) : Prop :=
  ∀ j s, w.shared.buckets_[j]? = some s → LockOk (fun b => Threads.total (holds w.shared j b) w.threads) s

theorem locks_start : Locks (start n initCapcity hasher : System K V) := by
  intro j s hj
  have hs : s = .new := by
    have hj : (List.replicate initCapcity.toNat Segment.new)[j]? = some s := hj
    rw [List.getElem?_replicate] at hj
    split at hj
    · exact (Option.some.inj hj).symm
    · cases hj
  have ht : ∀ b, Threads.total (holds (new initCapcity hasher) j b) (List.replicate n (.idle : MapPhase K V)) = 0 := by
    intro b
    rw [Threads.total_eq_zero]
    intro t ht
    rw [List.eq_of_mem_replicate ht]
    rfl
  subst hs
  exact ⟨ht true, ht false, fun _ => rfl⟩

/-- The call that a thread runs with the lock of its segment. -/
def inside : MapPhase K V → Option (MapCall K V)
  | .locked op | .loaded op _ | .applied op _ => some op
  | _ => none

theorem holds_inside (ht : inside t = some op) : holds m (m.getBucket op.key) op.writes t = 1 := by
  cases t with
  | locked op' | loaded op' | applied op' =>
    obtain rfl := Option.some.inj ht
    simp [holds]
  | idle | called | unlocked | done | sizing | sized => cases ht

/-- Where no thread is inside a segment, each lock is free. -/
theorem Locks.free (hl : Locks w) (hw : ∀ t ∈ w.threads, inside t = none) {j : Nat}
    (hs : w.shared.buckets_[j]? = some s) (writes : Bool) : s.Free writes := by
  have ht : ∀ b, Threads.total (holds w.shared j b) w.threads = 0 := by
    intro b
    rw [Threads.total_eq_zero]
    intro t ht
    have hin := hw t ht
    cases t with
    | locked | loaded | applied => cases hin
    | idle | called | unlocked | done | sizing | sized => rfl
  have hok := hl j s hs
  have he := hok.exclusive
  have hsh := hok.shared
  rw [ht] at he hsh
  refine ⟨?_, fun _ => hsh.symm⟩
  cases hx : s.exclusive with
  | false => rfl
  | true => simp [hx] at he

/-- The segments are as many as `capacity_`, which does not change. -/
structure Shape (initCapcity : Int) (m : ConcurrentHashMap K V) : Prop where
  capacity : m.capacity_ = initCapcity
  length : m.buckets_.length = initCapcity.toNat

/-- Each key has a segment. -/
theorem Shape.exists_segment (hm : Shape initCapcity m) (h1 : 1 ≤ initCapcity) (hmax : initCapcity ≤ intMax) (key : K) :
    ∃ s, m.buckets_[m.getBucket key]? = some s := by
  unfold intMax at hmax
  have hle : m.getBucket key ≤ (BitVec.ofInt 64 (m.capacity_ - 1)).toNat := by
    rw [getBucket, BitVec.toNat_and]
    exact Nat.and_le_left
  have hn : (BitVec.ofInt 64 (m.capacity_ - 1)).toNat = initCapcity.toNat - 1 := by
    rw [BitVec.toNat_ofInt, hm.capacity]
    omega
  have hlt : m.getBucket key < m.buckets_.length := by
    rw [hm.length]
    omega
  exact ⟨_, List.getElem?_eq_getElem hlt⟩

section

variable [DecidableEq K] [Inhabited V]

theorem putBack_locks (op : MapCall K V) (seen : AList fun _ : K => V) (s : Segment K V) :
    (s.putBack op seen).2.exclusive = s.exclusive ∧ (s.putBack op seen).2.shared = s.shared := by
  cases op with
  | insert key val =>
    simp only [Segment.putBack, MapCall.writes, if_true, Segment.run, Segment.insert]
    split <;> exact ⟨rfl, rfl⟩
  | get | erase => exact ⟨rfl, rfl⟩

theorem Step.locks {e : Nat × MapAct K V} (h : Step w e w') (hw : Locks w) : Locks w' := by
  obtain @⟨a, m, m', t, t', xs, ys, ha⟩ := h
  -- a step that takes no lock and leaves none
  have same : (∀ key, m'.getBucket key = m.getBucket key) → (∀ j b, holds m j b t' = holds m j b t) →
      (∀ (j : Nat) (s' : Segment K V), m'.buckets_[j]? = some s' → ∃ s : Segment K V, m.buckets_[j]? = some s ∧
        s'.exclusive = s.exclusive ∧ s'.shared = s.shared) → Locks ⟨m', xs ++ t' :: ys⟩ := by
    intro hb ht hs j s' hj
    obtain ⟨s, hj, he, hsh⟩ := hs j s' hj
    refine (hw j s hj).congr (fun b => ?_) he hsh
    simp only [holds_congr hb, Threads.total_append_cons, ht]
  cases ha with
  | call | ret | size | read | sized => exact same (fun _ => rfl) (fun _ _ => rfl) fun j s hj => ⟨s, hj, rfl, rfl⟩
  | count => exact same (fun _ => rfl) (fun _ _ => rfl) fun j s hj => ⟨s, hj, rfl, rfl⟩
  | load => exact same (fun _ => rfl) (fun _ _ => rfl) fun j s hj => ⟨s, hj, rfl, rfl⟩
  | @run op m s seen hs =>
    refine same (fun _ => rfl) (fun _ _ => rfl) fun j s' hj => ?_
    rw [getElem?_change] at hj
    obtain ⟨s, hs, rfl⟩ := Option.map_eq_some_iff.mp hj
    refine ⟨s, hs, ?_⟩
    split
    · exact putBack_locks op seen s
    · exact ⟨rfl, rfl⟩
  | @lock op m s hs hf =>
    intro j s' hj'
    rw [getElem?_change] at hj'
    obtain ⟨s₁, hj, rfl⟩ := Option.map_eq_some_iff.mp hj'
    have hl := hw j s₁ hj
    have hc : ∀ j b, holds (m.change op.key (·.lock op.writes)) j b = holds m j b := holds_congr fun _ => rfl
    by_cases hb : m.getBucket op.key = j
    · subst hb
      obtain rfl : s = s₁ := Option.some.inj (hs.symm.trans hj)
      rw [if_pos rfl]
      refine hl.lock hf fun b => ?_
      simp only [hc, Threads.total_append_cons, holds, true_and]
      by_cases hbw : op.writes = b
      · simp only [hbw, if_true]
        omega
      · simp only [if_neg hbw, if_neg (Ne.symm hbw), Nat.add_zero]
    · rw [if_neg hb]
      exact hl.congr (fun b => by simp [hc, holds, hb]) rfl rfl
  | @unlock op ret m =>
    intro j s' hj'
    rw [getElem?_change] at hj'
    obtain ⟨s₁, hj, rfl⟩ := Option.map_eq_some_iff.mp hj'
    have hl := hw j s₁ hj
    have hc : ∀ j b, holds (m.change op.key (·.unlock op.writes)) j b = holds m j b := holds_congr fun _ => rfl
    have ht : ∀ b, holds m j b (if op.counted ret = 0 then .done ret else .unlocked op ret) = 0 := fun b => by
      split <;> rfl
    by_cases hb : m.getBucket op.key = j
    · subst hb
      rw [if_pos rfl]
      refine hl.unlock fun b => ?_
      simp only [hc, Threads.total_append_cons, ht]
      simp only [holds, true_and]
      by_cases hbw : op.writes = b
      · simp only [hbw, if_true]
        omega
      · simp only [if_neg hbw, if_neg (Ne.symm hbw), Nat.add_zero]
    · rw [if_neg hb]
      refine hl.congr (fun b => ?_) rfl rfl
      simp only [hc, Threads.total_append_cons, ht]
      simp only [holds, hb, false_and, if_false]

theorem Acts.shape (h : Acts a m t m' t') (hm : Shape initCapcity m) : Shape initCapcity m' := by
  cases h with
  | call | load | ret | size | read | sized => exact hm
  | count => exact ⟨hm.capacity, hm.length⟩
  | lock | run | unlock => exact ⟨hm.capacity, (List.length_modify ..).trans hm.length⟩

/-- What holds of a map and its locks, whatever the threads do. -/
theorem locks_of_run (h : Run Step (start n initCapcity hasher : System K V) es w) :
    Locks w ∧ Shape initCapcity w.shared := by
  refine h.inv (P := fun w => Locks w ∧ Shape initCapcity w.shared) ⟨locks_start, rfl, List.length_replicate ..⟩ ?_
  rintro w e w' ⟨hl, hs⟩ hstep
  refine ⟨hstep.locks hl, ?_⟩
  obtain @⟨a, m, m', t, t', xs, ys, ha⟩ := hstep
  exact ha.shape hs

/-- Where two threads use the same segment at the same time, both of them only read. -/
theorem exclusive_of_run (h1 : 1 ≤ initCapcity) (hmax : initCapcity ≤ intMax)
    (h : Run Step (start n initCapcity hasher : System K V) es w) {i j : Nat} (hij : i < j) {u : MapPhase K V}
    {op' : MapCall K V} (hi : w.threads[i]? = some t) (hj : w.threads[j]? = some u) (ht : inside t = some op)
    (hu : inside u = some op') (hb : w.shared.getBucket op.key = w.shared.getBucket op'.key) :
    op.writes = false ∧ op'.writes = false := by
  obtain ⟨hl, hs⟩ := locks_of_run h
  obtain ⟨s, hseg⟩ := hs.exists_segment h1 hmax op.key
  have hok := hl _ s hseg
  have hh : holds w.shared (w.shared.getBucket op.key) op.writes t = 1 := holds_inside ht
  have hh' : holds w.shared (w.shared.getBucket op.key) op'.writes u = 1 := hb ▸ holds_inside hu
  have hpair := Threads.total_pair (f := holds w.shared (w.shared.getBucket op.key) true) hij hi hj
  have hle := fun b => Threads.le_total (f := holds w.shared (w.shared.getBucket op.key) b) (List.mem_of_getElem? hi)
  have hle' := fun b => Threads.le_total (f := holds w.shared (w.shared.getBucket op.key) b) (List.mem_of_getElem? hj)
  cases hw : op.writes with
  | false =>
    cases hw' : op'.writes with
    | false => exact ⟨rfl, rfl⟩
    | true =>
      rw [hw] at hh
      rw [hw'] at hh'
      have h₁ := hle false
      have h₂ := hle' true
      have := hok.alone (by omega)
      omega
  | true =>
    rw [hw] at hh
    have h₁ := hle true
    have := hok.alone (by omega)
    cases hw' : op'.writes with
    | false =>
      rw [hw'] at hh'
      have h₂ := hle' false
      omega
    | true =>
      rw [hw'] at hh'
      omega

/-- Two threads that look for the same key. -/
theorem exclusive_of_run_readers : ∃ w : System Nat Nat,
    Run Step (start 2 16 (BitVec.ofNat 64)) [(0, .call (.get 1)), (0, .lock), (1, .call (.get 1)), (1, .lock)] w ∧
    w.threads[0]? = some (.locked (.get 1)) ∧ w.threads[1]? = some (.locked (.get 1)) ∧
      (MapCall.get 1 : MapCall Nat Nat).writes = false := by
  obtain ⟨w, h, h₀, h₁⟩ := exists_run
    (P := fun w => w.threads[0]? = some (.locked (.get 1)) ∧ w.threads[1]? = some (.locked (.get 1)))
    (start 2 16 (BitVec.ofNat 64) : System Nat Nat)
    [(0, .call (.get 1)), (0, .lock), (1, .call (.get 1)), (1, .lock)] (by decide +kernel)
  exact ⟨w, h, h₀, h₁, (exclusive_of_run (by decide) (by decide) h Nat.zero_lt_one h₀ h₁ rfl rfl rfl).1⟩

/-- A thread that runs a call, and waits for no lock, can go on. -/
theorem exists_acts (hs : ∀ key, ∃ s, m.buckets_[m.getBucket key]? = some s) (hi : t ≠ .idle)
    (hc : ∀ op, t ≠ .called op) : ∃ a m' t', Acts a m t m' t' ∧ a ≠ .size ∧ ∀ op, a ≠ .call op := by
  cases t with
  | idle => exact absurd rfl hi
  | called op => exact absurd rfl (hc op)
  | locked op =>
    obtain ⟨s, hs⟩ := hs op.key
    exact ⟨_, _, _, .load hs, by simp, by simp⟩
  | loaded op seen =>
    obtain ⟨s, hs⟩ := hs op.key
    exact ⟨_, _, _, .run hs, by simp, by simp⟩
  | applied op ret => exact ⟨_, _, _, .unlock op ret m, by simp, by simp⟩
  | unlocked op ret => exact ⟨_, _, _, .count op ret m, by simp, by simp⟩
  | done ret => exact ⟨_, _, _, .ret ret m, by simp, by simp⟩
  | sizing => exact ⟨_, _, _, .read m, by simp, by simp⟩
  | sized n => exact ⟨_, _, _, .sized n m, by simp, by simp⟩

/-- Each call uses a segment that is there, and as long as a thread has not returned, some thread that has not can go
on: none waits for ever for a lock. -/
theorem exists_step_of_run (h1 : 1 ≤ initCapcity) (hmax : initCapcity ≤ intMax)
    (h : Run Step (start n initCapcity hasher : System K V) es w) :
    (∀ key, ∃ s, w.shared.buckets_[w.shared.getBucket key]? = some s) ∧
      ((∃ t ∈ w.threads, t ≠ .idle) → ∃ i a w', Step w (i, a) w' ∧ a ≠ .size ∧ ∀ op, a ≠ .call op) := by
  obtain ⟨hl, hshape⟩ := locks_of_run h
  have hs := hshape.exists_segment h1 hmax
  refine ⟨hs, ?_⟩
  rintro ⟨t, ht, hi⟩
  obtain ⟨m, ts⟩ := w
  by_cases hb : ∃ t ∈ ts, t ≠ .idle ∧ ∀ op, t ≠ .called op
  · obtain ⟨t, ht, hi, hc⟩ := hb
    obtain ⟨xs, ys, rfl⟩ := List.append_of_mem ht
    obtain ⟨a, m', t', ha, hne⟩ := exists_acts hs hi hc
    exact ⟨_, a, _, .mk ha, hne⟩
  · -- all others wait for a lock too, and nobody holds one
    have hin : ∀ t ∈ ts, inside t = none := by
      intro t ht
      by_contra hin
      refine hb ⟨t, ht, ?_, ?_⟩
      · rintro rfl
        exact hin rfl
      · rintro op rfl
        exact hin rfl
    obtain ⟨op, rfl⟩ : ∃ op, t = .called op := by
      by_contra hc
      exact hb ⟨t, ht, hi, fun op he => hc ⟨op, he⟩⟩
    obtain ⟨s, hseg⟩ := hs op.key
    obtain ⟨xs, ys, rfl⟩ := List.append_of_mem ht
    exact ⟨_, _, _, .mk (.lock hseg (hl.free hin hseg _)), by simp, by simp⟩

/-- A thread that waits for another one's lock. -/
theorem exists_step_of_run_waiting : ∃ w : System Nat Nat,
    Run Step (start 2 16 (BitVec.ofNat 64)) [(0, .call (.insert 1 7)), (0, .lock), (1, .call (.get 1))] w ∧
    w.threads[1]? = some (.called (.get 1)) ∧ ∃ i a w', Step w (i, a) w' ∧ a ≠ .size ∧ ∀ op, a ≠ .call op := by
  obtain ⟨w, h, h₁⟩ := exists_run (P := fun w => w.threads[1]? = some (.called (.get 1)))
    (start 2 16 (BitVec.ofNat 64) : System Nat Nat)
    [(0, .call (.insert 1 7)), (0, .lock), (1, .call (.get 1))] (by decide +kernel)
  exact ⟨w, h, h₁, (exists_step_of_run (by decide) (by decide) h).2 ⟨_, List.mem_of_getElem? h₁, by simp⟩⟩

end

/-! ## What a call has read -/

/-- What the thread has read of a segment is there still. -/
def Fresh (m : ConcurrentHashMap K V) : MapPhase K V → Prop
  | .loaded op seen => ∃ s, m.buckets_[m.getBucket op.key]? = some s ∧ s.map_ = seen
  | _ => True

/-- What the threads have read is there still. -/
def Reads (w : System K V) : Prop := ∀ t ∈ w.threads, Fresh w.shared t

/-- A segment changes, but not one that the thread has read. -/
theorem Fresh.change {key : K} {f : Segment K V → Segment K V} (h : Fresh m t)
    (hf : ∀ op s, inside t = some op → m.getBucket key = m.getBucket op.key → (f s).map_ = s.map_) :
    Fresh (m.change key f) t := by
  cases t with
  | loaded op seen =>
    obtain ⟨s, hs, rfl⟩ := h
    refine ⟨if m.getBucket key = m.getBucket op.key then f s else s, ?_, ?_⟩
    · rw [show (m.change key f).getBucket op.key = m.getBucket op.key from rfl, getElem?_change, hs]
      rfl
    · split
      · exact hf op s rfl ‹_›
      · rfl
  | idle | called | locked | applied | unlocked | done | sizing | sized => exact trivial

/-- While a thread writes, no other one is inside its segment. -/
theorem Locks.apart (hl : Locks ⟨m, xs ++ t :: ys⟩) (hs : m.buckets_[m.getBucket op.key]? = some s)
    (ht : inside t = some op) (hw : op.writes = true) {u : MapPhase K V} (hu : u ∈ xs ∨ u ∈ ys) {op' : MapCall K V}
    (hin : inside u = some op') : m.getBucket op.key ≠ m.getBucket op'.key := by
  intro hb
  have hok : LockOk (fun b => Threads.total (holds m (m.getBucket op.key) b) (xs ++ t :: ys)) s := hl _ s hs
  have hh : holds m (m.getBucket op.key) true t = 1 := hw ▸ holds_inside ht
  have hh' : holds m (m.getBucket op.key) op'.writes u = 1 := hb ▸ holds_inside hin
  have hle : ∀ b, holds m (m.getBucket op.key) b u ≤
      Threads.total (holds m (m.getBucket op.key) b) xs + Threads.total (holds m (m.getBucket op.key) b) ys := by
    intro b
    rcases hu with hu | hu
    · exact (Threads.le_total hu).trans (Nat.le_add_right _ _)
    · exact (Threads.le_total hu).trans (Nat.le_add_left _ _)
  have ha := hok.alone (by simp only [Threads.total_append_cons]; omega)
  simp only [Threads.total_append_cons] at ha
  cases hw' : op'.writes with
  | true =>
    have := hle true
    rw [hw'] at hh'
    omega
  | false =>
    have := hle false
    rw [hw'] at hh'
    omega

theorem reads_start : Reads (start n initCapcity hasher : System K V) := by
  intro t ht
  rw [List.eq_of_mem_replicate ht]
  exact trivial

/-- Under the lock of its segment a call has read what is there. -/
structure Guarded (w : System K V) : Prop where
  locks : Locks w
  reads : Reads w

theorem guarded_start : Guarded (start n initCapcity hasher : System K V) := ⟨locks_start, reads_start⟩

section

variable [DecidableEq K] [Inhabited V]

/-- A call that does not write puts nothing back. -/
theorem putBack_of_not_writes (hw : op.writes = false) (seen : AList fun _ : K => V) (s : Segment K V) :
    (s.putBack op seen).2 = s := by
  simp [Segment.putBack, hw]

/-- What was read is what is there: the call does what it does in a segment that it has to itself. -/
theorem putBack_eq {seen : AList fun _ : K => V} (h : s.map_ = seen) : s.putBack op seen = s.run op := by
  subst h
  cases op <;> rfl

theorem Acts.fresh (h : Acts a m t m' t') : Fresh m' t' := by
  cases h with
  | load hs => exact ⟨_, hs, rfl⟩
  | unlock =>
    split
    · exact trivial
    · exact trivial
  | call | lock | run | count | ret | size | read | sized => exact trivial

/-- What the others have read is not changed. -/
theorem Acts.others (h : Acts a m t m' t') (hl : Locks ⟨m, xs ++ t :: ys⟩) {u : MapPhase K V} (hu : u ∈ xs ∨ u ∈ ys)
    (hf : Fresh m u) : Fresh m' u := by
  cases h with
  | call | load | ret | size | read | sized => exact hf
  | count =>
    cases u <;> exact hf
  | lock => exact hf.change fun _ s _ _ => lock_map_ _ s
  | unlock => exact hf.change fun _ s _ _ => unlock_map_ _ s
  | @run op m s seen hs =>
    refine hf.change fun op' s' hin hb => ?_
    cases hw : op.writes with
    | true => exact absurd hb (hl.apart hs rfl hw hu hin)
    | false => rw [putBack_of_not_writes hw]

theorem Step.reads {e : Nat × MapAct K V} (h : Step w e w') (hl : Locks w) (hr : Reads w) : Reads w' := by
  obtain @⟨a, m, m', t, t', xs, ys, ha⟩ := h
  intro u hu
  rcases List.mem_append.mp hu with hu | hu
  · exact ha.others hl (.inl hu) (hr u (List.mem_append_left _ hu))
  · rcases List.mem_cons.mp hu with rfl | hu
    · exact ha.fresh
    · exact ha.others hl (.inr hu) (hr u (List.mem_append_right _ (List.mem_cons_of_mem t hu)))

theorem Step.guarded {e : Nat × MapAct K V} (h : Step w e w') (hw : Guarded w) : Guarded w' :=
  ⟨h.locks hw.locks, h.reads hw.locks hw.reads⟩

/-- What puts something back does what its call does on the segment as it is. -/
theorem change_putBack {seen : AList fun _ : K => V} (hf : Fresh m (.loaded op seen))
    (hs : m.buckets_[m.getBucket op.key]? = some s) :
    (s.putBack op seen).1 = (s.run op).1 ∧
      m.change op.key (fun s => (s.putBack op seen).2) = m.change op.key fun s => (s.run op).2 := by
  obtain ⟨s', hs', hseen⟩ := hf
  obtain rfl := Option.some.inj (hs.symm.trans hs')
  refine ⟨by rw [putBack_eq hseen], ?_⟩
  have hl : m.buckets_.modify (m.getBucket op.key) (fun s => (s.putBack op seen).2) =
      m.buckets_.modify (m.getBucket op.key) fun s => (s.run op).2 := by
    apply List.ext_getElem?
    intro j
    rw [List.getElem?_modify, List.getElem?_modify]
    by_cases hj : m.getBucket op.key = j
    · subst hj
      simp only [hs, if_true, Option.map_eq_map, Option.map_some, putBack_eq hseen]
    · simp only [if_neg hj]
  exact congrArg (fun l => { m with buckets_ := l }) hl

end

/-! ## Linearizability -/

section

variable [DecidableEq K]

/-- The map as an object that is used at one point of each call. -/
def abstract (w : System K V) : AtomicObject (K → Option V) (MapCall K V) (MapResult V) :=
  ⟨w.shared.content, phases w.threads⟩

theorem abstract_update (m m' : ConcurrentHashMap K V) (xs ys : List (MapPhase K V)) (t t' : MapPhase K V) :
    abstract ⟨m', xs ++ t' :: ys⟩ =
      ⟨m'.content, Function.update (abstract ⟨m, xs ++ t :: ys⟩).phase xs.length (phase t')⟩ :=
  congrArg (AtomicObject.mk _) (phases_update xs ys t t')

/-- A step that is not seen and has no effect. -/
theorem abstract_eq (xs ys : List (MapPhase K V)) (hc : m'.content = m.content) (hp : phase t' = phase t) :
    abstract ⟨m', xs ++ t' :: ys⟩ = abstract ⟨m, xs ++ t :: ys⟩ := by
  have hl : (abstract ⟨m, xs ++ t :: ys⟩).phase xs.length = phase t' := (phases_length xs ys t).trans hp.symm
  rw [abstract_update m m' xs ys t t', ← hl, Function.update_eq_self, hc]
  rfl

theorem abstract_start (threads : Nat) (initCapcity : Int) (hasher : K → BitVec 64) :
    abstract (start threads initCapcity hasher : System K V) = .init fun _ => none := by
  rw [abstract, AtomicObject.init, AtomicObject.mk.injEq]
  constructor
  · funext k
    simp only [start, new, Segment.new, content, List.getElem?_replicate]
    split <;> simp
  · funext i
    simp only [start, phases, List.getElem?_replicate]
    split <;> rfl

variable [Inhabited V]

/-- Each step is one of the object, or none. -/
theorem Step.atomic {e : Nat × MapAct K V} (h : Step w e w') (hr : Reads w) :
    Run (AtomicObject.Step mapSpec) (abstract w) (atomic e) (abstract w') := by
  obtain @⟨a, m, m', t, t', xs, ys, ha⟩ := h
  have hl : (abstract ⟨m, xs ++ t :: ys⟩).phase xs.length = phase t := phases_length xs ys t
  have hu := abstract_update m m' xs ys t t'
  have he : m'.content = m.content → phase t' = phase t →
      abstract ⟨m', xs ++ t' :: ys⟩ = abstract ⟨m, xs ++ t :: ys⟩ := abstract_eq xs ys
  cases ha with
  | call op =>
    rw [hu]
    exact .one (.call op hl)
  | @run op m s seen hs =>
    have hf : Fresh m (.loaded op seen) := hr _ (List.mem_append_right _ List.mem_cons_self)
    obtain ⟨hret, hc⟩ := change_putBack hf hs
    have hp : AtomicObject.Step mapSpec _ _ _ := .point hl
    rw [show (abstract ⟨m, _⟩).shared = m.content from rfl, run_eq hs] at hp
    rw [hu, hret, hc]
    exact .one hp
  | ret ret =>
    rw [hu]
    exact .one (.ret hl)
  | lock hs hf =>
    rw [he (content_change (lock_map_ _)) rfl]
    exact .nil
  | unlock op ret =>
    rw [he (content_change (unlock_map_ _)) (by split <;> rfl)]
    exact .nil
  | count op ret =>
    rw [he rfl rfl]
    exact .nil
  | load | size | read | sized =>
    rw [he rfl rfl]
    exact .nil

/-- Whatever threads call, and however their steps are interleaved, what is seen of the map is linearizable: but
for `size()`. -/
theorem linearizable (h : Run Step (start n initCapcity hasher : System K V) es w) :
    Linearizable mapSpec (fun _ => none) (history (es.flatMap atomic)) := by
  refine linearizable_of_refines (R := fun w o => Guarded w ∧ abstract w = o)
    ⟨guarded_start, abstract_start n initCapcity hasher⟩ h ?_
  rintro w e w' _ ⟨hw, rfl⟩ hs
  exact ⟨_, hs.atomic hw.reads, hs.guarded hw, rfl⟩

/-- Two threads insert at the same key: the one that waits for the lock finds what the other one has put there. -/
def overlapping : List (Nat × MapAct Nat Nat) :=
  [(0, .call (.insert 1 7)), (0, .lock), (0, .load), (1, .call (.insert 1 8)), (0, .run), (0, .unlock), (1, .lock),
    (1, .load), (1, .run), (1, .unlock), (1, .ret (.flag false)), (0, .count), (0, .ret (.flag true))]

theorem linearizable_overlapping : ∃ w : System Nat Nat, Run Step (start 2 16 (BitVec.ofNat 64)) overlapping w ∧
    Linearizable (mapSpec : Sequential (Nat → Option Nat) _ _) (fun _ => none)
      [.call 0 (.insert 1 7), .call 1 (.insert 1 8), .ret 1 (.flag false), .ret 0 (.flag true)] := by
  obtain ⟨w, h, -⟩ := exists_run (P := fun _ => True) (start 2 16 (BitVec.ofNat 64)) overlapping (by decide +kernel)
  exact ⟨w, h, linearizable h⟩

end

/-! ## Counting -/

/-- What a thread has still to add to `counts_`. -/
def pending : MapPhase K V → Int
  | .applied op ret | .unlocked op ret => op.counted ret
  | _ => 0

theorem counted_range (op : MapCall K V) (ret : MapResult V) : -1 ≤ op.counted ret ∧ op.counted ret ≤ 1 := by
  unfold MapCall.counted
  split <;> decide

theorem pending_range (t : MapPhase K V) : -1 ≤ pending t ∧ pending t ≤ 1 := by
  cases t with
  | applied op ret | unlocked op ret => exact counted_range op ret
  | idle | called | locked | loaded | done | sizing | sized => simp [pending]

/-- What all threads have still to add. -/
def allPending (ts : List (MapPhase K V)) : Int := ts.foldr (fun t n => pending t + n) 0

theorem allPending_append (xs ys : List (MapPhase K V)) : allPending (xs ++ ys) = allPending xs + allPending ys := by
  induction xs with
  | nil => exact (Int.zero_add _).symm
  | cons t xs ih =>
    show pending t + allPending (xs ++ ys) = pending t + allPending xs + allPending ys
    rw [ih, Int.add_assoc]

theorem allPending_cons (t : MapPhase K V) (ts : List (MapPhase K V)) :
    allPending (t :: ts) = pending t + allPending ts := rfl

/-- Each thread makes one call at a time. -/
theorem natAbs_allPending_le (ts : List (MapPhase K V)) : (allPending ts).natAbs ≤ ts.length := by
  induction ts with
  | nil => exact Nat.le_refl _
  | cons t ts ih =>
    have := pending_range t
    rw [allPending_cons, List.length_cons]
    omega

/-- What `counts_` should be. -/
def Counts (w : System K V) : Prop :=
  w.shared.counts_ = i32 (w.shared.entries - allPending w.threads)

theorem counts_start : Counts (start n initCapcity hasher : System K V) := by
  have he : (new initCapcity hasher : ConcurrentHashMap K V).entries = 0 := by
    simp [entries, new, Segment.new, Segment.size]
  have hp : allPending (List.replicate n (.idle : MapPhase K V)) = 0 := by
    induction n with
    | zero => rfl
    | succ n ih => exact (Int.zero_add _).trans ih
  simp only [Counts, start, he, hp]
  rfl

section

variable [DecidableEq K] [Inhabited V]

/-- A step of a thread changes how many entries there are, or what it has still to count. -/
theorem Acts.counts (h : Acts a m t m' t') (hf : Fresh m t) :
    m'.counts_ = m.counts_ ∧ (m'.entries : Int) - pending t' = m.entries - pending t ∨
      m'.counts_ = i32 (m.counts_ + pending t) ∧ m'.entries = m.entries ∧ pending t' = 0 := by
  cases h with
  | call | load | ret | size | read | sized => exact .inl ⟨rfl, rfl⟩
  | count op ret => exact .inr ⟨rfl, rfl, rfl⟩
  | lock =>
    refine .inl ⟨rfl, ?_⟩
    rw [entries_change_same (lock_map_ _)]
    rfl
  | @run op m s seen hs =>
    refine .inl ⟨rfl, ?_⟩
    obtain ⟨hret, hc⟩ := change_putBack hf hs
    have hsize := size_run op s
    rw [hc, hret, entries_change hs]
    simp only [pending]
    omega
  | unlock op ret =>
    refine .inl ⟨rfl, ?_⟩
    rw [entries_change_same (unlock_map_ _)]
    split
    · rename_i hc
      simp [pending, hc]
    · rfl

theorem Step.counts {e : Nat × MapAct K V} (h : Step w e w') (hr : Reads w) (hw : Counts w) : Counts w' := by
  obtain @⟨a, m, m', t, t', xs, ys, ha⟩ := h
  simp only [Counts, allPending_append, allPending_cons] at hw ⊢
  rcases ha.counts (hr t (List.mem_append_right _ List.mem_cons_self)) with ⟨hc, he⟩ | ⟨hc, he, hp⟩
  · rw [hc, hw]
    congr 1
    omega
  · rw [hc, hw, i32_i32_add, he, hp]
    congr 1
    omega

theorem Step.length {e : Nat × MapAct K V} (h : Step w e w') : w'.threads.length = w.threads.length := by
  obtain @⟨a, m, m', t, t', xs, ys, ha⟩ := h
  simp

/-- What `size()` reads: how many entries there are, but for the calls that have changed a segment and have not
counted it yet, of which each thread makes one at most. -/
theorem counts_of_run (h : Run Step (start n initCapcity hasher : System K V) es w) :
    w.shared.counts_ = i32 (w.shared.entries - allPending w.threads) ∧
      (allPending w.threads).natAbs ≤ n := by
  have hc : Guarded w ∧ Counts w := h.inv (P := fun w => Guarded w ∧ Counts w) ⟨guarded_start, counts_start⟩
    fun _ _ _ ⟨hg, hw⟩ hs => ⟨hs.guarded hg, hs.counts hg.reads hw⟩
  have hl : w.threads.length = n :=
    h.inv (P := fun w => w.threads.length = n) (by simp [start]) fun _ _ _ hw hs => hs.length.trans hw
  refine ⟨hc.2, ?_⟩
  exact hl ▸ natAbs_allPending_le w.threads

/-- An insertion is counted after the removal of what it has inserted. -/
def uncounted : List (Nat × MapAct Nat Nat) :=
  [(0, .call (.insert 1 7)), (0, .lock), (0, .load), (0, .run), (0, .unlock), (1, .call (.erase 1)), (1, .lock),
    (1, .load), (1, .run), (1, .unlock), (1, .count), (1, .ret (.flag true)), (1, .size), (1, .read)]

/-- `size()` returns `-1`. -/
theorem counts_of_run_negative : ∃ w : System Nat Nat, Run Step (start 2 16 (BitVec.ofNat 64)) uncounted w ∧
    w.threads[1]? = some (.sized (-1)) ∧ w.shared.counts_ = i32 (w.shared.entries - allPending w.threads) ∧
      (allPending w.threads).natAbs ≤ 2 := by
  obtain ⟨w, h, hw⟩ := exists_run (P := fun w => w.threads[1]? = some (.sized (-1))) (start 2 16 (BitVec.ofNat 64))
    uncounted (by decide +kernel)
  exact ⟨w, h, hw, counts_of_run h⟩

end

end ConcurrentHashMap

end Nio.Concurrent
