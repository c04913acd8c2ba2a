import NioSocket.Net.RecvAllocator

/-!
# The range of the guessed sizes

An allocator is made with a smallest, a first and a largest size. The search of the size
table is not a ceiling: in some of the table's gaps it ends at the entry below
(`fallsBack`), in the others at the one above (`getSizeTableIndex_gap`). The smallest and
the largest index are put right after the search, so that a handle's guesses stay in range
(`Fits.run`) once one is; the first guess is not put right (`guess_range_iff`).
-/

namespace Nio.Net

namespace SizeTable

/-- The gaps of the table, by the index of the entry below, in which the search ends below. -/
def fallsBack : List Nat :=
  [1, 4, 7, 9, 11, 14, 16, 18, 21, 23, 25, 28, 31, 34, 36, 38, 41, 43, 45, 48, 50]

theorem entry_mem (i : Int) : entry i ∈ 0 :: sizes := by
  rw [entry, List.getD_eq_getElem?_getD]
  obtain h | h := lt_or_ge i.toNat sizes.length
  · rw [List.getElem?_eq_getElem h]
    exact List.mem_cons_of_mem _ (List.getElem_mem h)
  · rw [List.getElem?_eq_none h]
    exact List.mem_cons_self

theorem entry_apart : ∀ i < 52, ∀ x ∈ 0 :: sizes, x ≤ entry (i : Nat) ∨ entry (i + 1 : Nat) ≤ x := by
  decide +kernel

theorem entry_step : ∀ i < 52, entry (i : Nat) + 1 < entry (i + 1 : Nat) := by decide +kernel

theorem entry_lt {i j : Nat} (hij : i < j) (hj : j ≤ 52) : entry i < entry j := by
  induction j with
  | zero => omega
  | succ j ih =>
    have h := entry_step j (by omega)
    obtain h' | rfl := Nat.lt_succ_iff_lt_or_eq.mp hij
    · have := ih h' (by omega)
      omega
    · omega

theorem entry_le {i j : Nat} (hij : i ≤ j) (hj : j ≤ 52) : entry i ≤ entry j := by
  obtain h | rfl := Nat.lt_or_eq_of_le hij
  · exact Int.le_of_lt (entry_lt h hj)
  · exact Int.le_refl _

/-- A size below the table, an entry, in a gap, or above the table. -/
theorem position (size : Int) :
    size < entry 0 ∨ (∃ i ≤ 52, size = entry (i : Nat)) ∨
      (∃ i < 52, entry (i : Nat) < size ∧ size < entry (i + 1 : Nat)) ∨ entry 52 < size := by
  have below : ∀ n ≤ 52, entry (n : Nat) < size ∨ size < entry 0 ∨ (∃ i ≤ 52, size = entry (i : Nat)) ∨
      ∃ i < 52, entry (i : Nat) < size ∧ size < entry (i + 1 : Nat) := by
    intro n
    induction n with
    | zero =>
      intro _
      obtain h | h | h := Int.lt_trichotomy (entry (0 : Nat)) size
      · exact .inl h
      · exact .inr (.inr (.inl ⟨0, by omega, h.symm⟩))
      · exact .inr (.inl h)
    | succ n ih =>
      intro hn
      refine (ih (by omega)).elim (fun hlt => ?_) .inr
      obtain h | h | h := Int.lt_trichotomy (entry (n + 1 : Nat)) size
      · exact .inl h
      · exact .inr (.inr (.inl ⟨n + 1, hn, h.symm⟩))
      · exact .inr (.inr (.inr ⟨n, by omega, hlt, h⟩))
  obtain h | h | h | h := below 52 le_rfl
  · exact .inr (.inr (.inr h))
  · exact .inl h
  · exact .inr (.inl h)
  · exact .inr (.inr (.inl h))

/-- The search depends on how the size compares with the entries only. -/
theorem search_congr {a b : Int} (heq : ∀ i, a = entry i ↔ b = entry i)
    (hlt : ∀ i, a < entry i ↔ b < entry i) (fuel : Nat) (low high : Int) :
    search a fuel low high = search b fuel low high := by
  have hgt (i : Int) : a > entry i ↔ b > entry i := by
    have := heq i
    have := hlt i
    omega
  induction fuel generalizing low high with
  | zero => rfl
  | succ fuel ih => simp only [search, heq, hlt, hgt, ih]

theorem getSizeTableIndex_entry : ∀ i ≤ 52, getSizeTableIndex (entry (i : Nat)) = some (i : Int) := by
  decide +kernel

theorem getSizeTableIndex_gap {i : Nat} {size : Int} (hi : i < 52) (h1 : entry i < size)
    (h2 : size < entry (i + 1 : Nat)) :
    getSizeTableIndex size = some (if i ∈ fallsBack then (i : Int) else i + 1) := by
  have table : ∀ i < 52, getSizeTableIndex (entry (i : Nat) + 1) =
      some (if i ∈ fallsBack then (i : Int) else i + 1) := by decide +kernel
  rw [← table i hi]
  have hs := entry_step i hi
  refine search_congr (fun k => ?_) (fun k => ?_) _ _ _ <;>
    have := entry_apart i hi _ (entry_mem k) <;> omega

theorem entry_range : ∀ x ∈ 0 :: sizes, x = 0 ∨ entry 0 ≤ x ∧ x ≤ entry 52 := by decide +kernel

theorem getSizeTableIndex_below {size : Int} (hpos : 0 < size) (h : size < entry 0) :
    getSizeTableIndex size = some 0 := by
  have h0 : getSizeTableIndex 1 = some 0 := by decide +kernel
  have he : entry 0 = 16 := rfl
  rw [← h0]
  refine search_congr (fun k => ?_) (fun k => ?_) _ _ _ <;>
    have := entry_range _ (entry_mem k) <;> omega

theorem getSizeTableIndex_above {size : Int} (h : entry 52 < size) : getSizeTableIndex size = some 52 := by
  have h52 : getSizeTableIndex (entry 52 + 1) = some 52 := by decide +kernel
  have he : entry 0 ≤ entry 52 ∧ 0 < entry 52 := by decide +kernel
  rw [← h52]
  refine search_congr (fun k => ?_) (fun k => ?_) _ _ _ <;>
    have := entry_range _ (entry_mem k) <;> omega

theorem getSize_entry {i : Nat} (hi : i ≤ 52) : getSize i = entry i := by
  have hl : (sizes.length : Int) = 53 := rfl
  unfold getSize
  split
  · congr 1
    omega
  · rw [if_neg (by omega)]

/-- The search ends at an entry that no other entry separates from the size. -/
theorem getSizeTableIndex_near {size : Int} (hpos : 0 < size) :
    ∃ k : Nat, k ≤ 52 ∧ getSizeTableIndex size = some (k : Int) ∧ (∀ j : Nat, j < k → entry j < size) ∧
      ∀ j : Nat, j ≤ 52 → k < j → size < entry j := by
  obtain h | ⟨i, hi, rfl⟩ | ⟨i, hi, h1, h2⟩ | h := position size
  · refine ⟨0, by omega, getSizeTableIndex_below hpos h, fun j hj => by omega, fun j hj hk => ?_⟩
    have := entry_lt hk hj
    simp only [Int.natCast_zero] at this
    omega
  · exact ⟨i, hi, getSizeTableIndex_entry i hi, fun j hj => entry_lt hj hi, fun j hj hk => entry_lt hk hj⟩
  · have below {j : Nat} (hj : j ≤ i) : entry j < size := by
      have := entry_le hj (by omega)
      omega
    have above {j : Nat} (hj : i + 1 ≤ j) (h52 : j ≤ 52) : size < entry j := by
      have := entry_le hj h52
      omega
    have hidx := getSizeTableIndex_gap hi h1 h2
    by_cases hf : i ∈ fallsBack
    · rw [if_pos hf] at hidx
      exact ⟨i, by omega, hidx, fun j hj => below (by omega), fun j hj hk => above (by omega) hj⟩
    · rw [if_neg hf] at hidx
      exact ⟨i + 1, by omega, hidx, fun j hj => below (by omega), fun j hj hk => above (by omega) hj⟩
  · refine ⟨52, by omega, getSizeTableIndex_above h, fun j hj => ?_, fun j hj hk => by omega⟩
    have := entry_lt hj le_rfl
    simp only [Nat.cast_ofNat] at this
    omega

/-- The smallest index after its fix-up: the first entry that is large enough. -/
theorem minIndex_eq {size : Int} (hpos : 0 < size) :
    ∃ i n : Int, getSizeTableIndex size = some i ∧ (if getSize i < size then i + 1 else i) = n ∧ 0 ≤ n ∧
      ∀ j : Nat, j ≤ 52 → (n ≤ j ↔ size ≤ entry j) := by
  obtain ⟨k, hk, hi, below, above⟩ := getSizeTableIndex_near hpos
  refine ⟨k, _, hi, rfl, by split <;> omega, fun j hj => ?_⟩
  rw [getSize_entry hk]
  obtain h | rfl | h := lt_trichotomy j k
  · have := below j h
    split <;> omega
  · split <;> omega
  · have := above j hj h
    split <;> omega

/-- The largest index after its fix-up: the last entry that is small enough. -/
theorem maxIndex_eq {size : Int} (hpos : 0 < size) :
    ∃ i n : Int, getSizeTableIndex size = some i ∧ (if getSize i > size then i - 1 else i) = n ∧ n ≤ 52 ∧
      ∀ j : Nat, j ≤ 52 → ((j : Int) ≤ n ↔ entry j ≤ size) := by
  obtain ⟨k, hk, hi, below, above⟩ := getSizeTableIndex_near hpos
  refine ⟨k, _, hi, rfl, by split <;> omega, fun j hj => ?_⟩
  rw [getSize_entry hk]
  obtain h | rfl | h := lt_trichotomy j k
  · have := below j h
    split <;> omega
  · split <;> omega
  · have := above j hj h
    split <;> omega

end SizeTable

open SizeTable

namespace AdaptiveRecvByteBufAllocator

/-- An allocator made with the three sizes, and a handle it creates. -/
def newHandle (minimum initial maximum : Int) : Except String (Option HandleImpl) :=
  match init minimum initial maximum with
  | .error e => .error e
  | .ok r => .ok (r.bind fun (minIndex, maxIndex, initial) => HandleImpl.new minIndex maxIndex initial)

/-- Some size of the table is in range. -/
def HasEntry (minimum maximum : Int) : Prop := ∃ i ≤ 52, minimum ≤ entry (i : Nat) ∧ entry (i : Nat) ≤ maximum

/-- Where the first size is in a gap of the table, the entry that the search ends at is in range. -/
def InitialFits (minimum initial maximum : Int) : Prop :=
  ∀ i < 52, entry (i : Nat) < initial → initial < entry (i + 1 : Nat) →
    if i ∈ fallsBack then minimum ≤ entry (i : Nat) else entry (i + 1 : Nat) ≤ maximum

end AdaptiveRecvByteBufAllocator

namespace HandleImpl

open AdaptiveRecvByteBufAllocator

/-- A call on a handle. -/
inductive Call where
  | attemptedBytesRead (bytes : Int)
  | lastBytesRead (bytes : Int)
  | readComplete
  | reset

/-- A call on the handle. -/
def call (h : HandleImpl) : Call → HandleImpl
  | .attemptedBytesRead bytes => h.attemptedBytesRead bytes
  | .lastBytesRead bytes => h.lastBytesRead bytes
  | .readComplete => h.readComplete
  | .reset => h.reset

/-- Calls, one after another. -/
def run (h : HandleImpl) (calls : List Call) : HandleImpl := calls.foldl call h

/-- The entries between the indices are in range, the index is at most one off, and so is the guess. -/
structure Fits (minimum maximum : Int) (h : HandleImpl) : Prop where
  nonneg : 0 ≤ h.minIndex
  le : h.minIndex ≤ h.maxIndex
  max_le : h.maxIndex ≤ 52
  entries : ∀ j : Nat, h.minIndex ≤ j → j ≤ h.maxIndex → minimum ≤ entry j ∧ entry j ≤ maximum
  index_ge : h.minIndex ≤ h.index + 1
  index_le : h.index ≤ h.maxIndex + 1
  guess : minimum ≤ h.guess ∧ h.guess ≤ maximum

variable {minimum initial maximum : Int} {h : HandleImpl}

/-- An index between the two bounds, and the size it stands for. -/
theorem Fits.moved (hh : h.Fits minimum maximum) {index : Int} {b : Bool} (h1 : h.minIndex ≤ index)
    (h2 : index ≤ h.maxIndex) : Fits minimum maximum
      { h with index := index, nextReceiveBufferSize := getSize index, decreaseNow := b } := by
  refine { hh with index_ge := ?_, index_le := ?_, guess := ?_ }
  · show h.minIndex ≤ index + 1
    omega
  · show index ≤ h.maxIndex + 1
    omega
  · show minimum ≤ getSize index ∧ getSize index ≤ maximum
    have hpos := hh.nonneg
    have hmax := hh.max_le
    obtain ⟨j, rfl⟩ := Int.eq_ofNat_of_zero_le (show 0 ≤ index by omega)
    rw [getSize_entry (by omega)]
    exact hh.entries j h1 h2

theorem Fits.record (hh : h.Fits minimum maximum) (n : Int) : (h.record n).Fits minimum maximum := by
  have hle := hh.le
  have hge := hh.index_ge
  have hmax := hh.index_le
  unfold HandleImpl.record
  have hdec : INDEX_DECREMENT = 1 := rfl
  have hinc : INDEX_INCREMENT = 4 := rfl
  split
  · split
    · exact hh.moved (by omega) (by omega)
    · exact { hh with }
  · split
    · exact hh.moved (by omega) (by omega)
    · exact hh

theorem Fits.lastBytesRead (hh : h.Fits minimum maximum) (n : Int) :
    (h.lastBytesRead n).Fits minimum maximum := by
  unfold HandleImpl.lastBytesRead
  split
  · exact { hh.record n with }
  · exact { hh with }

theorem Fits.call (hh : h.Fits minimum maximum) (c : Call) : (h.call c).Fits minimum maximum := by
  cases c with
  | attemptedBytesRead bytes => exact { hh with }
  | lastBytesRead bytes => exact hh.lastBytesRead bytes
  | readComplete => exact hh.record _
  | reset => exact { hh with }

theorem Fits.run (hh : h.Fits minimum maximum) (calls : List Call) :
    (h.run calls).Fits minimum maximum := by
  induction calls generalizing h with
  | nil => exact hh
  | cons c calls ih => exact ih (hh.call c)

/-- A handle's two indices are those of the first and the last entry in range; its first
guess is the entry that the search for the first size ends at. -/
theorem newHandle_eq (hmin : 0 < minimum) (h1 : minimum ≤ initial) (h2 : initial ≤ maximum)
    (he : HasEntry minimum maximum) :
    ∃ h : HandleImpl, ∃ k : Nat, newHandle minimum initial maximum = .ok (some h) ∧
      getSizeTableIndex initial = some (k : Int) ∧ h.guess = entry k ∧
      (minimum ≤ entry k ∧ entry k ≤ maximum → h.Fits minimum maximum) := by
  obtain ⟨a, n, hia, hn, hn0, hmina⟩ := minIndex_eq hmin
  obtain ⟨b, m, hib, hm, hm52, hmaxb⟩ := maxIndex_eq (show 0 < maximum by omega)
  obtain ⟨k, hk, hik, below, above⟩ := getSizeTableIndex_near (show 0 < initial by omega)
  obtain ⟨e, he52, he1, he2⟩ := he
  have hne := (hmina e he52).mpr he1
  have hem := (hmaxb e he52).mpr he2
  refine ⟨⟨n, m, k, getSize k, false, 0, 0, 0⟩, k, ?_, hik, getSize_entry hk, fun hg => ?_⟩
  · simp only [newHandle, init, if_neg (show ¬ minimum ≤ 0 by omega),
      if_neg (show ¬ initial < minimum by omega), if_neg (show ¬ maximum < initial by omega)]
    simp only [hia, hib, Option.bind_eq_bind, Option.bind_some, hn, hm, HandleImpl.new, hik]
  · refine ⟨hn0, Int.le_trans hne hem, hm52, fun j hj1 hj2 => ?_, ?_, ?_, ?_⟩
    · have hj : j ≤ 52 := by
        have : (j : Int) ≤ m := hj2
        omega
      exact ⟨(hmina j hj).mp hj1, (hmaxb j hj).mp hj2⟩
    · show n ≤ (k : Int) + 1
      by_contra hlt
      have := above (k + 1) (by omega) (by omega)
      have := (hmina (k + 1) (by omega)).not.mp (by omega)
      omega
    · show (k : Int) ≤ m + 1
      by_contra hlt
      have hk1 : ((k - 1 : Nat) : Int) = k - 1 := by omega
      have := below (k - 1) (by omega)
      have := (hmaxb (k - 1) (by omega)).not.mp (by omega)
      omega
    · show minimum ≤ getSize k ∧ getSize k ≤ maximum
      rwa [getSize_entry hk]

/-- The entry that the search for the first size ends at. -/
theorem initial_range_iff (hmin : 0 < minimum) (h1 : minimum ≤ initial) (h2 : initial ≤ maximum)
    (he : HasEntry minimum maximum) {k : Nat} (hk : getSizeTableIndex initial = some (k : Int)) :
    minimum ≤ entry k ∧ entry k ≤ maximum ↔ InitialFits minimum initial maximum := by
  obtain ⟨e, he52, he1, he2⟩ := he
  have unique {i j : Nat} (hij : i < 52) (hi : entry i < initial ∧ initial < entry (i + 1 : Nat))
      (hj : j < 52) (hj' : entry j < initial ∧ initial < entry (j + 1 : Nat)) : i = j := by
    obtain h | h | h := lt_trichotomy i j
    · have := entry_le (show i + 1 ≤ j by omega) (by omega)
      omega
    · exact h
    · have := entry_le (show j + 1 ≤ i by omega) (by omega)
      omega
  obtain h | ⟨i, hi, rfl⟩ | ⟨i, hi, hi1, hi2⟩ | h := position initial
  · obtain rfl : 0 = k := by
      rw [getSizeTableIndex_below (by omega) h] at hk
      have := Option.some.inj hk
      omega
    have := entry_le (Nat.zero_le e) he52
    rw [Int.natCast_zero] at this ⊢
    refine iff_of_true ⟨by omega, by omega⟩ fun i hi hi1 _ => ?_
    have := entry_le (Nat.zero_le i) (by omega)
    rw [Int.natCast_zero] at this
    omega
  · obtain rfl : i = k := by
      rw [getSizeTableIndex_entry i hi] at hk
      have := Option.some.inj hk
      omega
    refine iff_of_true ⟨h1, h2⟩ fun j hj hj1 hj2 => ?_
    obtain h | h := Nat.lt_or_ge j i
    · have := entry_le (show j + 1 ≤ i from h) hi
      omega
    · have := entry_le h (by omega)
      omega
  · rw [getSizeTableIndex_gap hi hi1 hi2] at hk
    have here : InitialFits minimum initial maximum ↔
        if i ∈ fallsBack then minimum ≤ entry i else entry (i + 1 : Nat) ≤ maximum := by
      refine ⟨fun h => h i hi hi1 hi2, fun h j hj hj1 hj2 => ?_⟩
      obtain rfl := unique hi ⟨hi1, hi2⟩ hj ⟨hj1, hj2⟩
      exact h
    rw [here]
    by_cases hf : i ∈ fallsBack
    · rw [if_pos hf] at hk ⊢
      obtain rfl : i = k := by
        have := Option.some.inj hk
        omega
      omega
    · rw [if_neg hf] at hk ⊢
      obtain rfl : i + 1 = k := by
        have := Option.some.inj hk
        omega
      omega
  · obtain rfl : 52 = k := by
      rw [getSizeTableIndex_above h] at hk
      have := Option.some.inj hk
      omega
    have := entry_le he52 le_rfl
    simp only [Nat.cast_ofNat] at this ⊢
    refine iff_of_true ⟨by omega, by omega⟩ fun i hi _ hi2 => ?_
    have := entry_le (show i + 1 ≤ 52 by omega) le_rfl
    simp only [Nat.cast_ofNat] at this
    omega

/-- The guesses of a handle are in the range it was made for, from the first on and after any
calls on it, exactly where the entry that the search ends at for the first size is. -/
theorem guess_range_iff {o : Option (Int × Int × Int)} (hacc : init minimum initial maximum = .ok o)
    (he : HasEntry minimum maximum) :
    ∃ h, newHandle minimum initial maximum = .ok (some h) ∧
      ((∀ calls, minimum ≤ (h.run calls).guess ∧ (h.run calls).guess ≤ maximum) ↔
        InitialFits minimum initial maximum) := by
  have hm : 0 < minimum ∧ minimum ≤ initial ∧ initial ≤ maximum := by
    unfold init at hacc
    split at hacc
    · cases hacc
    split at hacc
    · cases hacc
    split at hacc
    · cases hacc
    · omega
  obtain ⟨hmin, h1, h2⟩ := hm
  obtain ⟨h, k, hnew, hk, hg, hfits⟩ := newHandle_eq hmin h1 h2 he
  have hiff := initial_range_iff hmin h1 h2 he hk
  refine ⟨h, hnew, fun hall => ?_, fun hfit calls => ?_⟩
  · have hfirst : minimum ≤ h.guess ∧ h.guess ≤ maximum := hall []
    rw [hg] at hfirst
    exact hiff.mp hfirst
  · exact ((hfits (hiff.mpr hfit)).run calls).guess

/-- The sizes every connection's allocator is made with. -/
theorem guess_range_default :
    ∃ h, newHandle 1024 8192 65536 = .ok (some h) ∧
      ∀ calls, 1024 ≤ (h.run calls).guess ∧ (h.run calls).guess ≤ 65536 := by
  obtain ⟨h, hnew, hiff⟩ := @guess_range_iff 1024 8192 65536
    (some (32, 38, 8192)) (by decide +kernel) ⟨32, by decide +kernel⟩
  exact ⟨h, hnew, hiff.mpr (by unfold InitialFits; decide +kernel)⟩

/-- 1024 is a size in range, and the first guess is 2048. -/
theorem guess_range_past : HasEntry 1000 2000 ∧ init 1000 1500 2000 = .ok (some (32, 32, 1500)) ∧
    ∃ h, newHandle 1000 1500 2000 = .ok (some h) ∧ h.guess = 2048 ∧
      ¬ ∀ calls, 1000 ≤ (h.run calls).guess ∧ (h.run calls).guess ≤ 2000 :=
  ⟨⟨32, by decide +kernel⟩, by decide +kernel, ⟨32, 32, 33, 2048, false, 0, 0, 0⟩, by decide +kernel, rfl,
    fun hall => absurd (hall []).2 (by decide)⟩

end HandleImpl

end Nio.Net
