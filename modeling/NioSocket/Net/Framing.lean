import NioSocket.Net.Connection

/-!
# Frames in a stream

What a decoder finds in a stream of bytes, however it arrives: the item at an offset
(`item`) is settled as soon as there are enough bytes to tell, and stays what it is as
more come (`item_append`). A trace of `decode` reads one item after another (`Trace`),
each from where the last one ended.
-/

namespace Nio.Net

namespace LengthFieldBasedFrameDecoder

variable {d : LengthFieldBasedFrameDecoder} {l r S R : List UInt8} {it : Item} {t : List Decoded} {p : Nat}

/-! ## Items -/

theorem lengthField_append (hd : d.Supported) (hl : d.lengthFieldEndOffset_ ≤ l.length) :
    d.lengthField (l ++ r) = d.lengthField l := by
  obtain ⟨t, ht, hs⟩ := accessor_size hd.length
  have h0 := hd.offset_nonneg
  have he := hd.end_eq
  rw [lengthField, lengthField, ht]
  refine congrArg t.decode ?_
  rw [List.drop_append_of_le_length (by omega), List.take_append_of_le_length]
  rw [List.length_drop]
  omega

theorem frameLength_append (hd : d.Supported) (hl : d.lengthFieldEndOffset_ ≤ l.length) :
    d.frameLength (l ++ r) = d.frameLength l := by
  rw [frameLength, frameLength, lengthField_append hd hl]

/-- An item that is complete, or too long, stays so. -/
theorem item_append (hd : d.Supported) (h : d.item l = some it) : d.item (l ++ r) = some it := by
  rw [item] at h
  split at h
  · cases h
  rename_i hl
  have hl' : (l ++ r).length = l.length + r.length := List.length_append
  rw [item, if_neg (by omega), lengthField_append hd (by omega), frameLength_append hd (by omega)]
  split at h
  · rwa [if_pos ‹_›]
  rw [if_neg ‹_›]
  split at h
  · rwa [if_pos ‹_›]
  rw [if_neg ‹_›]
  split at h
  · rwa [if_pos ‹_›]
  rw [if_neg ‹_›]
  split at h
  · cases h
  rw [if_neg (by omega)]
  exact h

/-- The length field tells whether a frame is too long. -/
theorem item_tooLong_append (hd : d.Supported) (hl : d.lengthFieldEndOffset_ ≤ l.length) {n : Int} :
    d.item (l ++ r) = some (.tooLong n) ↔ d.item l = some (.tooLong n) := by
  refine ⟨fun h => ?_, item_append hd⟩
  rw [item, if_neg (by rw [List.length_append]; omega), lengthField_append hd hl, frameLength_append hd hl] at h
  rw [item, if_neg (by omega)]
  split at h
  · cases h
  rw [if_neg ‹_›]
  split at h
  · cases h
  rw [if_neg ‹_›]
  split at h
  · rwa [if_pos ‹_›]
  split at h
  · cases h
  split at h
  all_goals cases h

/-- An item is not empty, and ends behind its length field. -/
theorem item_bounds (hd : d.Supported) (h : d.item l = some it) :
    0 < it.length ∧ d.lengthFieldEndOffset_ ≤ l.length ∧ ((∀ n, it ≠ .tooLong n) → it.length ≤ l.length) := by
  have he := end_pos hd
  rw [item] at h
  split at h
  · cases h
  rename_i hl
  split at h
  · cases h
    exact ⟨he, by omega, fun _ => by simp only [Item.length]; omega⟩
  split at h
  · cases h
    exact ⟨he, by omega, fun _ => by simp only [Item.length]; omega⟩
  rename_i hend
  split at h
  · cases h
    exact ⟨by simp only [Item.length]; omega, by omega, fun hn => absurd rfl (hn _)⟩
  split at h
  · cases h
  split at h
  all_goals
    cases h
    exact ⟨by simp only [Item.length]; omega, by omega, fun _ => by simp only [Item.length]; omega⟩

theorem item_nil (hd : d.Supported) : d.item [] = none := by
  have he := end_pos hd
  rw [item, if_pos (by simpa using he)]

/-- What `decode` does with an item at the front of `l`. -/
def outcome (d : LengthFieldBasedFrameDecoder) (l : List UInt8) : Item → Decoded
  | .rejected _ what => .exception what
  | .tooLong n => .exception s!"Adjusted frame length exceeds {d.maxFrameLength_} : {n} - discarded"
  | .frame n => .frame ((l.drop d.initialBytesToStrip_.toNat).take (n - d.initialBytesToStrip_).toNat)

/-- The frame of `l`'s item ends with the item. -/
theorem item_frame {n : Int} (h : d.item l = some (.frame n)) :
    d.initialBytesToStrip_ ≤ n ∧ n ≤ l.length := by
  rw [item] at h
  split at h
  · cases h
  split at h
  · cases h
  split at h
  · cases h
  split at h
  · cases h
  split at h
  · cases h
  split at h
  · cases h
  · cases h
    omega

theorem outcome_append (hd : d.Supported) (h : d.item l = some it) :
    d.outcome (l ++ r) it = d.outcome l it := by
  cases it with
  | rejected | tooLong => rfl
  | frame n =>
    have hb := item_frame h
    have h0 := hd.strip_nonneg
    rw [outcome, outcome, List.drop_append_of_le_length (by omega), List.take_append_of_le_length]
    rw [List.length_drop]
    omega

/-- An exception has a text, by which `callDecode` knows that there was one. -/
theorem outcome_ne (h : d.item l = some it) : d.outcome l it ≠ .exception "" := by
  rw [item] at h
  split at h
  · cases h
  split at h
  · cases h; simp [outcome, toString]
  split at h
  · cases h; simp [outcome, toString]
  split at h
  · cases h; simp [outcome, toString]
  split at h
  · cases h
  split at h
  · cases h; simp [outcome, toString]
  · cases h; simp [outcome]

theorem outcome_ne_field {it : Item} (o : Int) : d.outcome l it ≠ .field o := by
  cases it <;> simp [outcome]

/-! ## Traces -/

/-- A trace of `decode` on the stream `S`, from the offset where an item begins to one where
another does. -/
inductive Trace (d : LengthFieldBasedFrameDecoder) (S : List UInt8) : Nat → List Decoded → Nat → Prop
  | nil (p : Nat) : Trace d S p [] p
  /-- A length field is read of an item that has not arrived as a whole. -/
  | look {t : List Decoded} {p p' : Nat} : d.lengthFieldEndOffset_ ≤ (S.drop p).length →
      (∀ n, d.item (S.drop p) ≠ some (.tooLong n)) → Trace d S p t p' →
      Trace d S p (.field (p + d.lengthFieldOffset_) :: t) p'
  | item {t : List Decoded} {p p' : Nat} {it : Item} : d.item (S.drop p) = some it →
      Trace d S (p + it.length.toNat) t p' →
      Trace d S p (.field (p + d.lengthFieldOffset_) :: d.outcome (S.drop p) it :: t) p'

theorem Trace.trans {p' p'' : Nat} {u : List Decoded} (h : Trace d S p t p') (h' : Trace d S p' u p'') :
    Trace d S p (t ++ u) p'' := by
  induction h with
  | nil => exact h'
  | look hl hn _ ih => exact .look hl hn (ih h')
  | item hit _ ih => exact .item hit (ih h')

/-- More bytes do not change what was found in those before. -/
theorem Trace.append {p' : Nat} (hd : d.Supported) (h : Trace d S p t p') (R : List UInt8) :
    Trace d (S ++ R) p t p' := by
  have hdrop : ∀ {q : Nat}, d.lengthFieldEndOffset_ ≤ (S.drop q).length →
      (S ++ R).drop q = S.drop q ++ R := fun {q} hq => by
    have := end_pos hd
    rw [List.length_drop] at hq
    exact List.drop_append_of_le_length (by omega)
  induction h with
  | nil => exact .nil _
  | look hl hn _ ih =>
    refine .look ?_ (fun n => ?_) ih
    · rw [hdrop hl, List.length_append]
      omega
    · rw [hdrop hl]
      exact fun h => hn n ((item_tooLong_append hd hl).mp h)
  | @item t p p' it hit _ ih =>
    have e := hdrop (item_bounds hd hit).2.1
    rw [← outcome_append (r := R) hd hit, ← e]
    refine .item ?_ ih
    rw [e]
    exact item_append hd hit

theorem Trace.le {p' : Nat} (h : Trace d S p t p') : p ≤ p' := by
  induction h with
  | nil => exact Nat.le_refl _
  | look _ _ _ ih => exact ih
  | item _ _ ih => omega

/-- The bytes of the events in a trace. -/
def frames (t : List Decoded) : List (List UInt8) :=
  t.filterMap fun | .frame bytes => some bytes | _ => none

/-- The exceptions in a trace. -/
def exceptions (t : List Decoded) : List String :=
  t.filterMap fun | .exception what => some what | _ => none

@[simp] theorem frames_append (t u : List Decoded) : frames (t ++ u) = frames t ++ frames u :=
  List.filterMap_append

@[simp] theorem exceptions_append (t u : List Decoded) : exceptions (t ++ u) = exceptions t ++ exceptions u :=
  List.filterMap_append

theorem frames_cons (x : Decoded) (t : List Decoded) : frames (x :: t) = frames [x] ++ frames t :=
  frames_append [x] t

theorem exceptions_cons (x : Decoded) (t : List Decoded) : exceptions (x :: t) = exceptions [x] ++ exceptions t :=
  exceptions_append [x] t

end LengthFieldBasedFrameDecoder

end Nio.Net
