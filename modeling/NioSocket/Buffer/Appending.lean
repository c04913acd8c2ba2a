import NioSocket.Buffer.Kinds

/-!
# Writing behind the writer index

What a write of some bytes does to any buffer that is a `Store`: it returns if there is room, or
room can be made (`Room`), with the bytes behind those written before (`Appended`), and else it
throws or does not return.
-/

namespace Nio.Buffer.CharBuf

variable {σ : Type} {c : CharBuf σ} {s s' s'' : σ} {bs bs' : List UInt8} {m n : Int}

/-- There is room for `n` bytes, or `ensureWritable` makes it. -/
def Room (c : CharBuf σ) (s : σ) (n : Int) : Prop :=
  n ≤ c.capacity s - c.writerIndex s ∨
    0 < c.capacity s ∧ c.writerIndex s + n ≤ 2 ^ 30 ∧ c.writerIndex s + n ≤ c.maxCapacity s

instance (c : CharBuf σ) (s : σ) (n : Int) : Decidable (c.Room s n) := inferInstanceAs (Decidable (_ ∨ _))

namespace Store

variable (B : Store c)

/-- The buffer is in use, and its writer index in order. -/
structure Writable (s : σ) : Prop where
  live : B.Live s
  writer_nonneg : 0 ≤ c.writerIndex s
  writer_le : c.writerIndex s ≤ c.capacity s
  capacity_le : c.capacity s ≤ c.maxCapacity s
  max_le : c.maxCapacity s ≤ intMax

/-- The capacity is as it was, or was made larger. -/
structure Extended (s s' : σ) : Prop where
  live : B.Live s'
  grown : c.capacity s ≤ c.capacity s'
  bounded : c.capacity s' = c.capacity s ∨ 0 < c.capacity s ∧ c.capacity s' ≤ 2 ^ 30
  max_le : c.capacity s' ≤ c.maxCapacity s

/-- The bytes `bs` are behind what was written before. -/
structure Appended (s : σ) (bs : List UInt8) (s' : σ) : Prop extends Extended B s s' where
  indices : c.indices s' = { c.indices s with writerIndex_ := c.writerIndex s + bs.length }
  fits : c.writerIndex s + bs.length ≤ c.capacity s'
  kept : ∀ k : Nat, (k : Int) < c.writerIndex s → B.byte s' k = B.byte s k
  written : (B.byte s').read (c.writerIndex s).toNat bs.length = bs

variable {B}

namespace Writable

variable (h : B.Writable s)
include h

theorem ensureWritable (hn : c.Room s n) : ∃ s', c.ensureWritable n s = .ok () s' ∧ B.Extended s s' ∧
    c.indices s' = c.indices s ∧ c.writerIndex s + n ≤ c.capacity s' ∧
    ∀ k : Nat, (k : Int) < c.capacity s → B.byte s' k = B.byte s k := by
  obtain ⟨hL, h0, hw, hc, hmax⟩ := h
  have hmax' : c.maxCapacity s ≤ 2147483647 := hmax
  rw [CharBuf.ensureWritable, writableBytes, i32_eq (by omega) (by omega)]
  by_cases hfits : n ≤ c.capacity s - c.writerIndex s
  · rw [if_neg (by omega)]
    exact ⟨s, rfl, ⟨hL, Int.le_refl _, .inl rfl, hc⟩, rfl, by omega, fun _ _ => rfl⟩
  obtain ⟨hpos, hpow, hm⟩ := hn.resolve_left hfits
  have hcalc := calculateNewCapacity_eq (c := c) (s := s) (m := c.writerIndex s + n) (by omega) hm (by omega) hmax
  rw [if_pos ⟨hpos, hpow⟩] at hcalc
  obtain ⟨m, hnm, hmm, hm30, e⟩ := hcalc
  obtain ⟨s', e', hL', hi, hcap, hb⟩ := B.grow_ok hL (n := m) (by omega) hmm (by omega)
  rw [if_pos (by omega), i32_eq (by omega) (by omega), if_neg (by omega), i32_eq (by omega) (by omega), e,
    Outcome.bind_ok]
  exact ⟨s', e', ⟨hL', by omega, .inr ⟨hpos, by omega⟩, by omega⟩, hi, by omega, hb⟩

/-- There is no room, and none is made. -/
theorem ensureWritable_not_ok (hn : ¬c.Room s n) (s' : σ) :
    c.ensureWritable n s ≠ .ok () s' := by
  obtain ⟨hL, h0, hw, hc, hmax⟩ := h
  have hmax' : c.maxCapacity s ≤ 2147483647 := hmax
  unfold Room at hn
  rw [CharBuf.ensureWritable, writableBytes, i32_eq (by omega) (by omega), if_pos (by omega),
    i32_eq (by omega) (by omega)]
  split
  · intro e
    cases e
  · have hcalc := calculateNewCapacity_eq (c := c) (s := s) (m := c.writerIndex s + n) (by omega) (by omega) (by omega) hmax
    rw [if_neg (by omega)] at hcalc
    rw [i32_eq (by omega) (by omega), hcalc]
    intro e
    cases e

/-- What every write does, once it has room: it puts its bytes at the writer index, and moves that. -/
theorem append {f : Int → Method σ Unit} (hn : c.Room s bs.length)
    (hf : ∀ (k : Nat) (t : σ), B.Live t → (k + bs.length : Nat) ≤ c.capacity t → f k t = .ok () (B.put k bs t)) :
    ∃ s', (do c.ensureWritable bs.length
              fun s => f (c.writerIndex s) s
              c.advanceWriter bs.length) s = .ok () s' ∧ B.Appended s bs s' := by
  obtain ⟨g, e, hE, hi, hfits, hbyte⟩ := h.ensureWritable hn
  obtain ⟨k, hk⟩ : ∃ k : Nat, c.writerIndex s = k := ⟨(c.writerIndex s).toNat, by have := h.writer_nonneg; omega⟩
  have hgw : c.writerIndex g = k := (congrArg (·.writerIndex_) hi).trans hk
  have hw := h.writer_le
  have hmax : c.maxCapacity s ≤ 2147483647 := h.max_le
  have hcap := hE.max_le
  have hput : (k + bs.length : Nat) ≤ c.capacity g := by omega
  have hind := B.indices_put k bs g
  have hpw : c.writerIndex (B.put k bs g) = k := (congrArg (·.writerIndex_) hind).trans hgw
  have hadd : i32 (c.writerIndex (B.put k bs g) + bs.length) = k + bs.length := by
    rw [hpw]
    exact i32_eq (by omega) (by omega)
  refine ⟨c.setIndex0 (c.readerIndex (B.put k bs g)) (k + bs.length) (B.put k bs g), ?_, ?_⟩
  · simp only [Method.bind_apply, e, Outcome.bind_ok, hgw, hf k g hE.live hput, advanceWriter, hadd]
  · have hcapacity : c.capacity (c.setIndex0 (c.readerIndex (B.put k bs g)) (k + bs.length) (B.put k bs g)) = c.capacity g := by
      refine (B.capacity_setIndices ?_).trans (B.capacity_put k bs g)
      rfl
    refine ⟨⟨B.live_setIndices rfl (B.live_put hE.live hput), ?_, ?_, ?_⟩, ?_, ?_, fun j hj => ?_, ?_⟩
    · rw [hcapacity]
      exact hE.grown
    · rw [hcapacity]
      exact hE.bounded
    · rw [hcapacity]
      exact hE.max_le
    · rw [setIndex0, B.indices_setIndices, readerIndex, hind, hi, hk]
    · rw [hcapacity]
      omega
    · rw [setIndex0, B.byte_setIndices, B.byte_put hE.live hput, Mem.write_of_lt (by omega), hbyte j (by omega)]
    · rw [setIndex0, B.byte_setIndices, B.byte_put hE.live hput, hk, Int.toNat_natCast, Mem.read_write_self]

end Writable

namespace Appended

variable (h : B.Appended s bs s')
include h

theorem writerIndex : c.writerIndex s' = c.writerIndex s + bs.length := congrArg (·.writerIndex_) h.indices

theorem maxCapacity : c.maxCapacity s' = c.maxCapacity s := congrArg (·.maxCapacity_) h.indices

theorem writable (hs : B.Writable s) : B.Writable s' := by
  have hw := h.writerIndex
  have hm := h.maxCapacity
  have h0 := hs.writer_nonneg
  exact ⟨h.live, by omega, by rw [hw]; exact h.fits, by rw [hm]; exact h.max_le, by rw [hm]; exact hs.max_le⟩

theorem trans (hs : B.Writable s) (h' : B.Appended s' bs' s'') : B.Appended s (bs ++ bs') s'' := by
  have hw := h.writerIndex
  have hm := h.maxCapacity
  have hlen : (bs ++ bs').length = bs.length + bs'.length := List.length_append
  have h0 := hs.writer_nonneg
  refine ⟨⟨h'.live, Int.le_trans h.grown h'.grown, ?_, ?_⟩, ?_, ?_, fun k hk => ?_, ?_⟩
  · have h1 := h.bounded
    have h2 := h'.bounded
    omega
  · have := h'.max_le
    omega
  · rw [h'.indices, h.indices, hw, show c.writerIndex s + bs.length + bs'.length = c.writerIndex s + (bs ++ bs').length by omega]
  · have := h'.fits
    omega
  · rw [h'.kept k (by omega), h.kept k hk]
  · have e1 : (B.byte s'').read (c.writerIndex s).toNat bs.length = bs := by
      refine Eq.trans (Mem.read_congr fun k hk => h'.kept _ ?_) h.written
      omega
    have e2 : (c.writerIndex s).toNat + bs.length = (c.writerIndex s').toNat := by omega
    rw [hlen, Mem.read_add, e1, e2, h'.written]

/-- What is written first leaves the room for what is written then. -/
theorem room_iff (hs : B.Writable s) : c.Room s (bs ++ bs').length ↔ c.Room s' bs'.length := by
  have hw := h.writerIndex
  have hm := h.maxCapacity
  have hlen : (bs ++ bs').length = bs.length + bs'.length := List.length_append
  have h1 := h.bounded
  have h2 := h.grown
  have h3 := h.max_le
  have h4 := h.fits
  have h0 := hs.writer_nonneg
  have hle := hs.writer_le
  unfold Room
  constructor <;> rintro (h | h) <;> omega

omit h in
theorem refl (hs : B.Writable s) : B.Appended s [] s := by
  refine ⟨⟨hs.live, Int.le_refl _, .inl rfl, hs.capacity_le⟩, ?_, ?_, fun _ _ => rfl, rfl⟩
  · show _ = { c.indices s with writerIndex_ := c.writerIndex s + 0 }
    rw [Int.add_zero]
    rfl
  · show c.writerIndex s + 0 ≤ _
    rw [Int.add_zero]
    exact hs.writer_le

end Appended

/-! ## One write after another -/

variable (B) in
/-- The calls `m` write the bytes `bs`, if there is room for all of them; else they do not return. -/
def Writes (m : Method σ Unit) (bs : List UInt8) : Prop :=
  ∀ s, B.Writable s → (c.Room s bs.length → ∃ s', m s = .ok () s') ∧
    ∀ s', m s = .ok () s' → c.Room s bs.length ∧ B.Appended s bs s'

namespace Writes

variable {m m' : Method σ Unit}

theorem nil : B.Writes (pure ()) [] := fun s hs => by
  refine ⟨fun _ => ⟨s, rfl⟩, fun s' e => ?_⟩
  cases e
  exact ⟨.inl (by have := hs.writer_le; simp; omega), .refl hs⟩

theorem seq (h : B.Writes m bs) (h' : B.Writes m' bs') : B.Writes (do m; m') (bs ++ bs') := fun s hs => by
  obtain ⟨h1, h2⟩ := h s hs
  constructor
  · intro hroom
    have hlen : (bs ++ bs').length = bs.length + bs'.length := List.length_append
    obtain ⟨s₁, e₁⟩ := h1 (by unfold Room at hroom ⊢; omega)
    have hA := (h2 s₁ e₁).2
    obtain ⟨s₂, e₂⟩ := (h' s₁ (hA.writable hs)).1 ((hA.room_iff hs).mp hroom)
    exact ⟨s₂, by rw [Method.bind_apply, e₁, Outcome.bind_ok, e₂]⟩
  · intro s₂ e
    obtain ⟨_, s₁, e₁, e₂⟩ := Outcome.bind_eq_ok e
    have hA := (h2 s₁ e₁).2
    obtain ⟨hroom, hA'⟩ := (h' s₁ (hA.writable hs)).2 s₂ e₂
    exact ⟨(hA.room_iff hs).mpr hroom, hA.trans hs hA'⟩

/-- What every write does. -/
theorem of_put (f : Int → Method σ Unit)
    (hf : ∀ (k : Nat) (t : σ), B.Live t → (k + bs.length : Nat) ≤ c.capacity t → f k t = .ok () (B.put k bs t)) :
    B.Writes (do c.ensureWritable bs.length
                 fun s => f (c.writerIndex s) s
                 c.advanceWriter bs.length) bs := fun s hs => by
  refine ⟨fun hroom => ?_, fun s' e => ?_⟩
  · obtain ⟨s', e, -⟩ := hs.append hroom hf
    exact ⟨s', e⟩
  · by_cases hn : c.Room s bs.length
    · obtain ⟨t, e', hA⟩ := hs.append hn hf
      cases e.symm.trans e'
      exact ⟨hn, hA⟩
    · obtain ⟨_, t, e', -⟩ := Outcome.bind_eq_ok e
      exact absurd e' (hs.ensureWritable_not_ok hn t)

theorem value (bs : List UInt8) : B.Writes (c.writeValue bs) bs :=
  of_put (c._set · bs) fun _ _ hL hk => B.set_ok hL hk

/-- A string that is no longer than an `int` can say. -/
theorem string {v : List UInt8} (hv : (v.length : Int) ≤ intMax) : B.Writes (c.writeString v) v := by
  unfold intMax at hv
  rw [writeString, i32_eq (by omega) hv]
  refine of_put (c._setChars · v v.length) fun k t hL hk => ?_
  have e := B._setChars_ok hL hk (Nat.le_refl v.length)
  rwa [List.take_length] at e

end Writes

end Store

end Nio.Buffer.CharBuf
