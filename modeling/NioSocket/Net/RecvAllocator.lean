import NioSocket.Lib.MachineInt
import Mathlib.Data.List.Basic

/-!
# The size of the next read buffer

`AdaptiveRecvByteBufAllocator`: its table of sizes, and the handle that guesses the
size of a connection's next read buffer from what the reads before it brought.
-/

namespace Nio.Net

namespace SizeTable

/-- `init()`: by 16 up to 496, then the powers of two an `int` holds, from 512 on. -/
def sizes : List Int :=
  (List.range 31).map (fun k => (16 * (k + 1) : Nat)) ++ (List.range 22).map fun k => (2 ^ (k + 9) : Nat)

/-- `sizes[i]`. -/
def entry (i : Int) : Int := sizes.getD i.toNat 0

/-- The loop of `getSizeTableIndex`, in `fuel` rounds. -/
def search (size : Int) : Nat → Int → Int → Option Int
  | 0, _, _ => none
  | fuel + 1, low, high =>
    if low < high then
      let mid := (low + high) / 2
      if size = entry mid then some mid
      else if size < entry mid then search size fuel low (mid - 1)
      else if size > entry (mid + 1) then search size fuel (mid + 1) high
      else some (mid + 1)
    else some low

/-- `getSizeTableIndex(size)`, if the search ends. -/
def getSizeTableIndex (size : Int) : Option Int := search size 64 0 (sizes.length - 1)

/-- `getSize(index)`, within the table. -/
def getSize (index : Int) : Int :=
  if index ≤ 0 then entry 0 else if index ≥ sizes.length then entry (sizes.length - 1) else entry index

end SizeTable

/-- `AdaptiveRecvByteBufAllocator::HandleImpl`, and the data members of
`MaxMessageHandle` that it uses. -/
structure HandleImpl where
  minIndex : Int
  maxIndex : Int
  index : Int
  nextReceiveBufferSize : Int
  decreaseNow : Bool
  totalBytesRead_ : Int
  attemptedBytesRead_ : Int
  lastBytesRead_ : Int
  deriving DecidableEq, Repr

namespace AdaptiveRecvByteBufAllocator

/-- `DEFAULT_MINIMUM`. -/
def DEFAULT_MINIMUM : Int := 1024

/-- `DEFAULT_INITIAL`. -/
def DEFAULT_INITIAL : Int := 8192

/-- `DEFAULT_MAXIMUM`. -/
def DEFAULT_MAXIMUM : Int := 65536

/-- `INDEX_INCREMENT`. -/
def INDEX_INCREMENT : Int := 4

/-- `INDEX_DECREMENT`. -/
def INDEX_DECREMENT : Int := 1

/-- `minIndex_`, `maxIndex_` and `initial_`, as `init(minimum, initial, maximum)` sets them. -/
def init (minimum initial maximum : Int) : Except String (Option (Int × Int × Int)) :=
  if minimum ≤ 0 then .error s!"minimum: {minimum}"
  else if initial < minimum then .error s!"initial: {initial}"
  else if maximum < initial then .error s!"maximum: {maximum}"
  else .ok <| do
    let minIndex ← SizeTable.getSizeTableIndex minimum
    let maxIndex ← SizeTable.getSizeTableIndex maximum
    some (if SizeTable.getSize minIndex < minimum then minIndex + 1 else minIndex,
      if SizeTable.getSize maxIndex > maximum then maxIndex - 1 else maxIndex, initial)

end AdaptiveRecvByteBufAllocator

namespace HandleImpl

open AdaptiveRecvByteBufAllocator

/-- `HandleImpl(parent, minIndex, maxIndex, initial)`. -/
def new (minIndex maxIndex initial : Int) : Option HandleImpl := do
  let index ← SizeTable.getSizeTableIndex initial
  some ⟨minIndex, maxIndex, index, SizeTable.getSize index, false, 0, 0, 0⟩

/-- The handle of the allocator every connection has. -/
def default : HandleImpl := ⟨32, 38, 35, 8192, false, 0, 0, 0⟩

example : init DEFAULT_MINIMUM DEFAULT_INITIAL DEFAULT_MAXIMUM = .ok (some (32, 38, 8192)) ∧
    new 32 38 8192 = some default := by decide

/-- `guess()`. -/
def guess (h : HandleImpl) : Int := h.nextReceiveBufferSize

/-- `totalBytesRead()`: a sum that has wrapped is the largest `int`. -/
def totalBytesRead (h : HandleImpl) : Int :=
  if h.totalBytesRead_ < 0 then intMax else h.totalBytesRead_

/-- `record(actualReadBytes)`: down behind two small reads, up behind one that fills the buffer. -/
def record (h : HandleImpl) (actualReadBytes : Int) : HandleImpl :=
  if actualReadBytes ≤ SizeTable.getSize (max 0 (h.index - INDEX_DECREMENT - 1)) then
    if h.decreaseNow then
      let index := max (h.index - INDEX_DECREMENT) h.minIndex
      { h with index := index, nextReceiveBufferSize := SizeTable.getSize index, decreaseNow := false }
    else { h with decreaseNow := true }
  else if actualReadBytes ≥ h.nextReceiveBufferSize then
    let index := min (h.index + INDEX_INCREMENT) h.maxIndex
    { h with index := index, nextReceiveBufferSize := SizeTable.getSize index, decreaseNow := false }
  else h

/-- `lastBytesRead(bytes)`. -/
def lastBytesRead (h : HandleImpl) (bytes : Int) : HandleImpl :=
  let h := if bytes = h.attemptedBytesRead_ then h.record bytes else h
  { h with
    lastBytesRead_ := bytes
    totalBytesRead_ := if bytes > 0 then i32 (h.totalBytesRead_ + bytes) else h.totalBytesRead_ }

/-- `readComplete()`. -/
def readComplete (h : HandleImpl) : HandleImpl := h.record h.totalBytesRead

/-- `attemptedBytesRead(bytes)`. -/
def attemptedBytesRead (h : HandleImpl) (bytes : Int) : HandleImpl := { h with attemptedBytesRead_ := bytes }

/-- `reset()`. -/
def reset (h : HandleImpl) : HandleImpl := { h with totalBytesRead_ := 0 }

/-! ## The guesses are sizes of the table -/

/-- The guess is an entry of the table, between those of the smallest and the largest index. -/
structure Ok (h : HandleImpl) : Prop where
  minIndex : h.minIndex = 32
  maxIndex : h.maxIndex = 38
  index_ge : 32 ≤ h.index
  index_le : h.index ≤ 38
  next : h.nextReceiveBufferSize = SizeTable.getSize h.index

variable {h : HandleImpl}

theorem default_ok : default.Ok := ⟨rfl, rfl, by decide, by decide, by decide⟩

theorem Ok.record (hh : h.Ok) (n : Int) : (h.record n).Ok := by
  obtain ⟨h1, h2, h3, h4, h5⟩ := hh
  unfold HandleImpl.record
  have hdec : INDEX_DECREMENT = 1 := rfl
  have hinc : INDEX_INCREMENT = 4 := rfl
  split
  · split
    · exact ⟨h1, h2, by show 32 ≤ max _ _; omega, by show max _ _ ≤ 38; omega, rfl⟩
    · exact ⟨h1, h2, h3, h4, h5⟩
  · split
    · exact ⟨h1, h2, by show 32 ≤ min _ _; omega, by show min _ _ ≤ 38; omega, rfl⟩
    · exact ⟨h1, h2, h3, h4, h5⟩

theorem Ok.lastBytesRead (hh : h.Ok) (n : Int) : (h.lastBytesRead n).Ok := by
  unfold HandleImpl.lastBytesRead
  split
  · exact { hh.record n with }
  · exact { hh with }

theorem Ok.readComplete (hh : h.Ok) : h.readComplete.Ok := hh.record _

theorem Ok.attemptedBytesRead (hh : h.Ok) (n : Int) : (h.attemptedBytesRead n).Ok := { hh with }

theorem Ok.reset (hh : h.Ok) : h.reset.Ok := { hh with }

/-- A guess is even, and is neither too small nor too large. -/
theorem Ok.guess (hh : h.Ok) : 1024 ≤ h.guess ∧ h.guess ≤ 65536 ∧ 2 ∣ h.guess := by
  rw [HandleImpl.guess, hh.next]
  have h1 := hh.index_ge
  have h2 := hh.index_le
  obtain h | h | h | h | h | h | h : h.index = 32 ∨ h.index = 33 ∨ h.index = 34 ∨ h.index = 35 ∨
    h.index = 36 ∨ h.index = 37 ∨ h.index = 38 := by omega
  all_goals rw [h]; decide

end HandleImpl

end Nio.Net
