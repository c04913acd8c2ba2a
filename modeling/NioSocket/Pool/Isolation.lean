import NioSocket.Pool.Reachable
import NioSocket.Pool.Store

/-!
# The buffers of an arena do not disturb each other

Seen from outside, an arena is a store of arrays: each live buffer has one of its own, and a call
on a buffer changes the array of that buffer and no other (`Step.frame`). The arrays are computed from
the calls alone (`Arrays.next`), with no chunk or region in sight; in every state that a run
reaches, each byte that was written through a buffer is where the buffer reads it
(`arrays_of_run`).
-/

namespace Nio.Pool

variable {l : Layout} {a a' : PoolArena} {t t' u : Slot} {n : Int} {b b' : PooledCharBuf} {r : Region} {e : Extent}

/-! ## What a step of the arena leaves alone -/

namespace PoolArena

/-- From `a` to `a'`, the bytes of an extent of chunk `c` stay as they are. -/
def Spares (a a' : PoolArena) (c : Nat) (e : Extent) : Prop :=
  ∀ k < e.length, a'.byte c (e.offset + k) = a.byte c (e.offset + k)

theorem Spares.refl (a : PoolArena) (c : Nat) (e : Extent) : a.Spares a c e := fun _ _ => rfl

theorem Whole.chunk_ne (W : a.Whole l) (hu : a.given l u = some e) : a.chunk u.chunk ≠ none := by
  obtain ⟨ch, hch, -⟩ := W.chunks.in_chunk W.pools hu
  rw [hch]
  exact Option.some_ne_none ch

theorem Extends.spares (hE : a.Extends a') (W : a.Whole l) (hu : a.given l u = some e) : a.Spares a' u.chunk e :=
  fun _ _ => hE.byte (W.chunk_ne hu) _

theorem Freed.spares {e' : Extent} (F : a.Freed l a' t e') (hu : a'.given l u = some e) : a.Spares a' u.chunk e :=
  fun _ _ => (F.carried.byte (F.whole.chunk_ne hu) _).symm

/-- Writing in a slot spares every other. -/
theorem spares_write {ch : PoolChunk} {o m i : Nat} {bs : List UInt8} (W : a.Whole l) (ht : a.given l t = some ⟨o, m⟩)
    (hch : a.chunk t.chunk = some ch) (hi : i + bs.length ≤ m) (hu : a.given l u = some e) (hne : u ≠ t) :
    a.Spares (a.setChunk t.chunk (ch.withMemory (ch.memory.write (o + i) bs))) u.chunk e := fun k hk => by
  by_cases hc : u.chunk = t.chunk
  · rw [hc, byte_eq chunk_setChunk, byte_eq hch]
    rcases W.chunks.apart W.pools hu ht hne hc with h | h
    · exact Mem.write_of_lt (by dsimp only at h; omega)
    · exact Mem.write_of_ge (by dsimp only at h; omega)
  · rw [byte, byte, chunk_setChunk_of_ne hc]

/-- A buffer that moves to another slot spares those that are neither. -/
theorem Moved.spares (M : a.Moved l a' b n t t' r) (W : a.Whole l) (H : b.Holds l a t) (hu : a.given l u = some e)
    (hu' : a'.given l u = some e) (hne : u ≠ t') : a.Spares a' u.chunk e := fun k hk => by
  have ht' : a'.given l t' = some ⟨r.offset_, r.maxLength_⟩ := (M.holds H b).given
  refine M.kept _ _ (W.chunk_ne hu) (M.whole.chunk_ne hu') ?_
  by_cases hc : u.chunk = t'.chunk
  · right
    rcases M.whole.chunks.apart M.whole.pools hu' ht' hne hc with h | h
    · left
      dsimp only at h
      omega
    · right
      dsimp only at h
      omega
  · exact .inl hc

end PoolArena

namespace Buffers

variable {s s' : Buffers} {c : Call} {cs : List Call} {σ : Nat → Slot} {id k : Nat} {p : Pooled}

/-- The buffer that a call is on, or makes. -/
def Call.target (s : Buffers) : Call → Nat
  | .allocate .. => s.nextBuf
  | .capacity id _ | .write id .. | .release id => id

/-- The bytes of a buffer that holds a slot are spared with the slot. -/
theorem byte_of_spares (H : b.Holds l a t) (hs : a.Spares a' t.chunk ⟨b.offset_, b.maxLength_⟩)
    (hk : (k : Int) < b.length_) :
    Pooled.byte ⟨a', b⟩ k = Pooled.byte ⟨a, b⟩ k := by
  have hlen := H.length_
  simp only [Pooled.byte, Mem.shift, H.memory_, Option.getD_some]
  exact hs k (by dsimp only; omega)

/-- A call on one buffer leaves every other as it is, with all its bytes. -/
theorem Step.frame (H : Held l s σ) (st : Step s c s') (hne : id ≠ c.target s) (hb : s.buf id = some b) :
    s'.buf id = some b ∧ ∀ k : Nat, (k : Int) < b.length_ → Pooled.byte ⟨s'.arena, b⟩ k = Pooled.byte ⟨s.arena, b⟩ k := by
  have hH := H.holds id b hb
  cases st with
  | @allocate req max b' a' hi _ ea =>
    have hm : req ≠ intMin := by
      rintro rfl
      rw [PoolArena.allocateBuf, Method.bind_apply, PoolArena.allocate_intMin H.whole] at ea
      cases ea
    obtain ⟨r, t, a₁, e₁, hS, hL, hE⟩ := PoolArena.allocate_ok H.whole hi hm
    rw [PoolArena.allocateBuf, Method.bind_apply, e₁] at ea
    obtain ⟨-, rfl⟩ := Outcome.ok.inj ea
    exact ⟨(Function.update_of_ne hne ..).trans hb, fun k hk => byte_of_spares hH (hE.spares H.whole hH.given) hk⟩
  | @capacity id' n b' p hb' hi ec =>
    have hne : id ≠ id' := hne
    refine ⟨(set_buf_of_ne hne).trans hb, fun k hk => byte_of_spares hH ?_ hk⟩
    have hH' := H.holds id' b' hb'
    rcases Pooled.setCapacity_cases H.whole hH' hi with ⟨-, e⟩ | ⟨-, -, what, e⟩ | ⟨-, -, ⟨hle, e⟩ | ⟨-, r, t', a', e, M⟩ |
      ⟨-, e⟩⟩
    · obtain ⟨-, rfl⟩ := Outcome.ok.inj (e.symm.trans ec)
      exact fun _ _ => rfl
    · cases e.symm.trans ec
    · obtain ⟨-, rfl⟩ := Outcome.ok.inj (e.symm.trans ec)
      exact fun _ _ => rfl
    · obtain ⟨-, rfl⟩ := Outcome.ok.inj (e.symm.trans ec)
      have H' := H.move hb' M { M.holds hH' b' with } rfl (H.refCnt_ id' b' hb')
      have hu' := (H'.holds id b ((set_buf_of_ne hne).trans hb)).given
      rw [Function.update_of_ne hne] at hu'
      by_cases he : σ id = t'
      · have h0 := (H.of_fresh M.fresh hb he).2.1
        have hlen := hH.length_
        omega
      · exact M.spares H.whole hH' hH.given hu' he
    · cases e.symm.trans ec
  | @refused id' n b' what p hb' hi ec =>
    have hne : id ≠ id' := hne
    refine ⟨(set_buf_of_ne hne).trans hb, fun k hk => byte_of_spares hH ?_ hk⟩
    have hH' := H.holds id' b' hb'
    rcases Pooled.setCapacity_cases H.whole hH' hi with ⟨-, e⟩ | ⟨-, -, what, e⟩ | ⟨-, -, ⟨-, e⟩ | ⟨-, r, t', a', e, -⟩ |
      ⟨-, e⟩⟩
    · cases e.symm.trans ec
    · obtain ⟨-, rfl⟩ := Outcome.throw.inj (e.symm.trans ec)
      exact fun _ _ => rfl
    · cases e.symm.trans ec
    · cases e.symm.trans ec
    · cases e.symm.trans ec
  | @write id' index src b' p hb' hle ep =>
    have hne : id ≠ id' := hne
    refine ⟨(set_buf_of_ne hne).trans hb, fun k hk => byte_of_spares hH ?_ hk⟩
    have hH' := H.holds id' b' hb'
    have hlen := hH'.length_
    obtain ⟨ch, hch, e⟩ := Pooled.poke_ok H.whole hH' (show index + src.length ≤ b'.maxLength_ by omega)
    obtain ⟨-, rfl⟩ := Outcome.ok.inj (e.symm.trans ep)
    by_cases he : σ id = σ id'
    · have h0 := H.apart id id' b b' hb hb' hne he
      have hlen := hH.length_
      omega
    · exact PoolArena.spares_write H.whole hH'.given hch (by omega) hH.given he
  | @release id' b' p hb' er =>
    have hne : id ≠ id' := hne
    obtain ⟨a', b'', e, F⟩ := Pooled.release_one H.whole (H.holds id' b' hb') (H.refCnt_ id' b' hb')
    obtain ⟨-, rfl⟩ := Outcome.ok.inj (e.symm.trans er)
    have hb₂ : (s.remove id' a').buf id = some b := (Function.update_of_ne hne ..).trans hb
    exact ⟨hb₂, fun k hk => byte_of_spares hH (F.spares ((H.drop hb' F).holds id b hb₂).given) hk⟩

end Buffers

/-! ## The arrays -/

/-- A buffer, seen from outside: how large it may become, and the bytes that were written to it. -/
structure Cells where
  maxCapacity_ : Int
  cells : List (Option UInt8)
  deriving DecidableEq, Repr

namespace Cells

variable {c : Cells} {p : Pooled} {i k : Nat} {bs : List UInt8} {v : UInt8}

/-- An array of so many cells. -/
def new (reqCapacity maxCapacity : Int) : Cells := ⟨maxCapacity, .replicate reqCapacity.toNat none⟩

/-- A capacity that is out of range is refused. -/
def resize (n : Int) (c : Cells) : Cells :=
  if 0 ≤ n ∧ n ≤ c.maxCapacity_ then { c with cells := (c.cells ++ .replicate n.toNat none).take n.toNat } else c

/-- Some cells are written. -/
def write (i : Nat) (bs : List UInt8) (c : Cells) : Cells :=
  { c with cells := c.cells.take i ++ bs.map some ++ c.cells.drop (i + bs.length) }

theorem length_resize (h : 0 ≤ n ∧ n ≤ c.maxCapacity_) : ((c.resize n).cells.length : Int) = n := by
  rw [resize, if_pos h]
  simp only [List.length_take, List.length_append, List.length_replicate]
  omega

/-- The bytes in the capacity are kept. -/
theorem get_resize (h : 0 ≤ n ∧ n ≤ c.maxCapacity_) (hv : (c.resize n).cells[k]? = some (some v)) :
    (k : Int) < n ∧ c.cells[k]? = some (some v) := by
  rw [resize, if_pos h, List.getElem?_take] at hv
  split at hv
  · refine ⟨by omega, ?_⟩
    rcases Nat.lt_or_ge k c.cells.length with hk | hk
    · rwa [List.getElem?_append_left hk] at hv
    · rw [List.getElem?_append_right hk, List.getElem?_replicate] at hv
      split at hv <;> cases hv
  · cases hv

theorem length_write (h : i + bs.length ≤ c.cells.length) : (c.write i bs).cells.length = c.cells.length := by
  simp only [write, List.length_append, List.length_take, List.length_map, List.length_drop]
  omega

/-- What is written is what was written last. -/
theorem get_write {m : Mem} (h : i + bs.length ≤ c.cells.length) (hm : ∀ k v, c.cells[k]? = some (some v) → m k = v)
    (hv : (c.write i bs).cells[k]? = some (some v)) : m.write i bs k = v := by
  have hi : (c.cells.take i).length = i := List.length_take_of_le (by omega)
  simp only [write, List.append_assoc] at hv
  rcases Nat.lt_or_ge k i with hk | hk
  · rw [List.getElem?_append_left (by omega), List.getElem?_take_of_lt hk] at hv
    rw [Mem.write_of_lt hk, hm k v hv]
  obtain ⟨d, rfl⟩ := Nat.exists_eq_add_of_le hk
  rw [List.getElem?_append_right (by omega), hi, Nat.add_sub_cancel_left] at hv
  rcases Nat.lt_or_ge d bs.length with hd | hd
  · rw [List.getElem?_append_left (by simpa using hd), List.getElem?_map, List.getElem?_eq_getElem hd] at hv
    rw [Mem.write_add hd]
    exact Option.some.inj (Option.some.inj hv)
  · rw [List.getElem?_append_right (by simpa using hd), List.getElem?_drop, List.length_map] at hv
    rw [Mem.write_of_ge (by omega)]
    exact hm _ v (by rwa [show i + bs.length + (d - bs.length) = i + d by omega] at hv)

/-- The buffer has the length of the array, and the bytes that were written. -/
structure Shown (c : Cells) (p : Pooled) : Prop where
  maxCapacity_ : p.buf.indices.maxCapacity_ = c.maxCapacity_
  length_ : p.buf.length_ = c.cells.length
  le : p.buf.length_ ≤ c.maxCapacity_
  byte : ∀ k v, c.cells[k]? = some (some v) → p.byte k = v

theorem Shown.lt (S : c.Shown p) (h : c.cells[k]? = some (some v)) : (k : Int) < p.buf.length_ := by
  have := (List.getElem?_eq_some_iff.mp h).1
  have := S.length_
  omega

/-- The buffer was given another capacity, and has kept its bytes. -/
theorem Shown.resize {p' : Pooled} (S : c.Shown p) (hn : 0 ≤ n ∧ n ≤ c.maxCapacity_)
    (hm : p'.buf.indices.maxCapacity_ = p.buf.indices.maxCapacity_) (hl : p'.buf.length_ = n)
    (hb : ∀ k : Nat, (k : Int) < p.buf.length_ → (k : Int) < n → p'.byte k = p.byte k) : (c.resize n).Shown p' where
  maxCapacity_ := by rw [hm, S.maxCapacity_, Cells.resize, if_pos hn]
  length_ := hl.trans (length_resize hn).symm
  le := by rw [hl, Cells.resize, if_pos hn]; exact hn.2
  byte k v hv := by
    obtain ⟨hk, hv⟩ := get_resize hn hv
    rw [hb k (S.lt hv) hk, S.byte k v hv]

end Cells

namespace Buffers

/-- The arrays of the live buffers. -/
structure Arrays where
  array : Nat → Option Cells
  nextBuf : Nat

namespace Arrays

/-- No arrays. -/
def init : Arrays := ⟨fun _ => none, 0⟩

/-- An array changes. -/
def update (id : Nat) (f : Cells → Cells) (A : Arrays) : Arrays :=
  { A with array := Function.update A.array id ((A.array id).map f) }

/-- What a call does to the arrays. -/
def next (A : Arrays) : Call → Arrays
  | .allocate req max => ⟨Function.update A.array A.nextBuf (some (.new req max)), A.nextBuf + 1⟩
  | .capacity id n => A.update id (·.resize n)
  | .write id index src => A.update id (·.write index src)
  | .release id => { A with array := Function.update A.array id none }

/-- The arrays after some calls. -/
def after (cs : List Call) : Arrays := cs.foldl next init

/-- The live buffers show the arrays. -/
structure Shown (A : Arrays) (s : Buffers) : Prop where
  nextBuf : A.nextBuf = s.nextBuf
  dead : ∀ id, s.buf id = none → A.array id = none
  live : ∀ id b, s.buf id = some b → ∃ c : Cells, A.array id = some c ∧ c.Shown ⟨s.arena, b⟩

end Arrays

variable {s s' : Buffers} {A A' : Arrays} {σ : Nat → Slot} {cs : List Call} {c : Call} {id : Nat}

theorem Step.buf_of_ne (st : Step s c s') (hne : id ≠ c.target s) : s'.buf id = s.buf id := by
  cases st with
  | allocate | capacity | refused | write | release => exact Function.update_of_ne hne ..

/-- It is enough that the buffer of the call shows its array. -/
theorem Arrays.Shown.of_target (S : A.Shown s) (H : Held l s σ) (st : Step s c s')
    (hA : ∀ k, k ≠ c.target s → A'.array k = A.array k) (hn : A'.nextBuf = s'.nextBuf)
    (hd : s'.buf (c.target s) = none → A'.array (c.target s) = none)
    (hl : ∀ b, s'.buf (c.target s) = some b → ∃ c' : Cells, A'.array (c.target s) = some c' ∧ c'.Shown ⟨s'.arena, b⟩) :
    A'.Shown s' where
  nextBuf := hn
  dead k hk := by
    by_cases he : k = c.target s
    · rw [he] at hk ⊢
      exact hd hk
    · rw [hA k he]
      rw [st.buf_of_ne he] at hk
      exact S.dead k hk
  live k b hb := by
    by_cases he : k = c.target s
    · rw [he] at hb ⊢
      exact hl b hb
    · rw [st.buf_of_ne he] at hb
      obtain ⟨c', hc', S'⟩ := S.live k b hb
      obtain ⟨-, hfr⟩ := st.frame H he hb
      exact ⟨c', (hA k he).trans hc', { S' with byte := fun j v hv => (hfr j (S'.lt hv)).trans (S'.byte j v hv) }⟩

/-- A call on a live buffer, of which `f` is what it does to the array. -/
theorem Arrays.Shown.update {f : Cells → Cells} {p : Pooled} (S : A.Shown s) (H : Held l s σ) (st : Step s c (s.set id p))
    (hid : c.target s = id) (hb : s.buf id = some b) (hf : ∀ c' : Cells, c'.Shown ⟨s.arena, b⟩ → (f c').Shown p) :
    (A.update id f).Shown (s.set id p) := by
  obtain ⟨c', hc', S'⟩ := S.live id b hb
  refine S.of_target H st (fun k hk => Function.update_of_ne (hid ▸ hk) ..) S.nextBuf (fun h => ?_) fun b₁ hb₁ => ?_
  · rw [hid, set_buf] at h
    cases h
  · rw [hid, set_buf] at hb₁
    cases hb₁
    refine ⟨f c', ?_, hf c' S'⟩
    rw [hid]
    show Function.update A.array id _ id = _
    rw [Function.update_self, hc', Option.map_some]

/-- Each call does to the buffers what it does to the arrays. -/
theorem Step.shown (H : Held l s σ) (S : A.Shown s) (st : Step s c s') (hc : c.Proper) : (A.next c).Shown s' := by
  have st₀ := st
  cases st with
  | @allocate req max b a' hi _ ea =>
    have hm : req ≠ intMin := by
      rintro rfl
      cases hc.1
    obtain ⟨r, t, a₁, e₁, hS, -, -⟩ := PoolArena.allocate_ok H.whole hi hm
    rw [PoolArena.allocateBuf, Method.bind_apply, e₁] at ea
    obtain ⟨rfl, rfl⟩ := Outcome.ok.inj ea
    have hn := S.nextBuf
    have hbuf : ∀ b₁, (s.add a₁ b₁).buf s.nextBuf = some b₁ := fun b₁ => Function.update_self ..
    refine S.of_target H st₀ (fun k hk => Function.update_of_ne (hn ▸ hk) ..) (congrArg (· + 1) hn) (fun h => ?_)
      fun b₁ hb₁ => ?_
    · cases (hbuf _).symm.trans h
    · cases (hbuf _).symm.trans hb₁
      refine ⟨.new req max, ?_, ⟨rfl, ?_, ?_, fun k v hv => ?_⟩⟩
      · show Function.update A.array A.nextBuf _ s.nextBuf = _
        rw [← hn, Function.update_self]
      · show r.length_ = _
        rw [hS.length_, Cells.new, List.length_replicate]
        have := hc.1
        omega
      · show r.length_ ≤ max
        rw [hS.length_]
        exact hc.2
      · rw [Cells.new, List.getElem?_replicate] at hv
        split at hv <;> cases hv
  | @capacity id n b p hb hi ec =>
    refine S.update H st₀ rfl hb fun c' S' => ?_
    have hH := H.holds id b hb
    have hmax : b.indices.maxCapacity_ = c'.maxCapacity_ := S'.maxCapacity_
    rcases Pooled.setCapacity_cases H.whole hH hi with ⟨he, e⟩ | ⟨-, -, what, e⟩ | ⟨-, hn, ⟨-, e⟩ | ⟨-, r, t', a', e, M⟩ |
      ⟨-, e⟩⟩
    · obtain ⟨-, rfl⟩ := Outcome.ok.inj (e.symm.trans ec)
      have hlen : b.length_ = _ := S'.length_
      have hle : b.length_ ≤ _ := S'.le
      exact S'.resize ⟨by omega, by omega⟩ rfl he.symm fun _ _ _ => rfl
    · cases e.symm.trans ec
    · obtain ⟨-, rfl⟩ := Outcome.ok.inj (e.symm.trans ec)
      refine S'.resize ⟨hn.1, hmax ▸ hn.2⟩ ?_ ?_ fun k _ _ => ?_
      · exact PooledCharBuf.settle_maxCapacity_ ..
      · obtain ⟨i, e⟩ := (b.withLength n).settle_eq b.length_ n
        rw [e]
        rfl
      · obtain ⟨i, e⟩ := (b.withLength n).settle_eq b.length_ n
        rw [e]
        rfl
    · obtain ⟨-, rfl⟩ := Outcome.ok.inj (e.symm.trans ec)
      refine S'.resize ⟨hn.1, hmax ▸ hn.2⟩ ?_ ?_ fun k hk hk' => ?_
      · exact PooledCharBuf.settle_maxCapacity_ ..
      · obtain ⟨i, e⟩ := (b.init0 r).settle_eq b.length_ n
        rw [e]
        exact M.length_
      · obtain ⟨i, e⟩ := (b.init0 r).settle_eq b.length_ n
        have hcopy := M.copied k (by dsimp only at hk; omega)
        simp only [e, Pooled.byte, Mem.shift, (M.holds hH b).memory_, hH.memory_, Option.getD_some]
        exact hcopy
    · cases e.symm.trans ec
  | @refused id n b what p hb hi ec =>
    refine S.update H st₀ rfl hb fun c' S' => ?_
    have hmax : b.indices.maxCapacity_ = c'.maxCapacity_ := S'.maxCapacity_
    rcases Pooled.setCapacity_cases H.whole (H.holds id b hb) hi with ⟨-, e⟩ | ⟨-, hn, what, e⟩ |
      ⟨-, -, ⟨-, e⟩ | ⟨-, r, t', a', e, -⟩ | ⟨-, e⟩⟩
    · cases e.symm.trans ec
    · obtain ⟨-, rfl⟩ := Outcome.throw.inj (e.symm.trans ec)
      rw [Cells.resize, if_neg (by omega)]
      exact S'
    · cases e.symm.trans ec
    · cases e.symm.trans ec
    · cases e.symm.trans ec
  | @write id index src b p hb hle ep =>
    refine S.update H st₀ rfl hb fun c' S' => ?_
    have hlen : b.length_ = _ := S'.length_
    have hold : Pooled.Holding l (σ id) ⟨s.arena, b⟩ := ⟨H.whole, H.holds id b hb, by show 0 ≤ b.length_; omega⟩
    obtain ⟨-, rfl⟩ := Outcome.ok.inj ((hold.poke_ok hle).symm.trans ep)
    have hbuf : (Pooled.put index src ⟨s.arena, b⟩).buf = b := Pooled.buf_put ..
    have hin : index + src.length ≤ c'.cells.length := by omega
    refine ⟨by rw [hbuf]; exact S'.maxCapacity_, ?_, by rw [hbuf]; exact S'.le, fun k v hv => ?_⟩
    · rw [hbuf, Cells.length_write hin]
      exact S'.length_
    · rw [hold.byte_put]
      exact Cells.get_write hin S'.byte hv
  | @release id b p hb er =>
    have hgone : Function.update s.buf id none id = none := Function.update_self ..
    refine S.of_target H st₀ (fun k hk => Function.update_of_ne hk ..) S.nextBuf (fun _ => Function.update_self ..)
      fun b₁ hb₁ => ?_
    cases hgone.symm.trans hb₁

/-- After calls whose requests are proper, the live buffers are the arrays that the calls made, as long as
they are, and each byte that was written, through whichever buffers moved since, is read back where it was
written. -/
theorem arrays_of_run (h : Run Step (init l) cs s) (hcs : ∀ c ∈ cs, c.Proper) :
    (∀ id, s.buf id = none ↔ (Arrays.after cs).array id = none) ∧
    ∀ id b c, s.buf id = some b → (Arrays.after cs).array id = some c →
      b.length_ = c.cells.length ∧ b.indices.maxCapacity_ = c.maxCapacity_ ∧
      ∃ bs, Pooled.peek 0 b.length_ ⟨s.arena, b⟩ = .ok bs ⟨s.arena, b⟩ ∧ bs.length = c.cells.length ∧
        ∀ (k : Nat) (v : UInt8), c.cells[k]? = some (some v) → bs[k]? = some v := by
  obtain ⟨⟨σ, H⟩, S⟩ : (∃ σ, Held l s σ) ∧ (Arrays.after cs).Shown s := by
    refine h.foldl (R := fun (s : Buffers) (A : Arrays) => (∃ σ, Held l s σ) ∧ A.Shown s)
      ⟨⟨_, init_held l⟩, rfl, fun _ _ => rfl, fun _ _ h => ?_⟩ ?_
    · cases h
    · rintro t c t' A hc ⟨⟨σ, H⟩, S⟩ st
      exact ⟨st.held H, st.shown H S (hcs c hc)⟩
  refine ⟨fun id => ⟨S.dead id, fun hn => ?_⟩, fun id b c hb hc => ?_⟩
  · by_contra hs
    obtain ⟨b, hb⟩ := Option.ne_none_iff_exists'.mp hs
    obtain ⟨c, hc, -⟩ := S.live id b hb
    cases hn.symm.trans hc
  · obtain ⟨c', hc', S'⟩ := S.live id b hb
    obtain rfl := Option.some.inj (hc.symm.trans hc')
    have hlen : b.length_ = c.cells.length := S'.length_
    have hold : Pooled.Holding l (σ id) ⟨s.arena, b⟩ := ⟨H.whole, H.holds id b hb, by show 0 ≤ b.length_; omega⟩
    refine ⟨hlen, S'.maxCapacity_, Mem.read (Pooled.byte ⟨s.arena, b⟩) 0 c.cells.length, ?_, Mem.length_read .., ?_⟩
    · rw [hlen]
      exact hold.peek_ok (show ((0 + c.cells.length : Nat) : Int) ≤ b.length_ by omega)
    · intro k v hv
      have hk := (List.getElem?_eq_some_iff.mp hv).1
      rw [Mem.getElem?_read hk, Nat.zero_add, S'.byte k v hv]

/-- Two buffers of one page: the first is written, moves to a page of its own, and still reads what was
written to it. -/
theorem arrays_of_run_moved : ∃ s b, Run Step (init twoPages)
      [.allocate 2 100, .allocate 2 100, .write 0 0 [1, 2], .write 1 0 [3, 4], .capacity 0 100] s ∧ s.buf 0 = some b ∧
    b.length_ = 100 ∧
    ∃ bs, Pooled.peek 0 b.length_ ⟨s.arena, b⟩ = .ok bs ⟨s.arena, b⟩ ∧ bs[0]? = some 1 ∧ bs[1]? = some 2 := by
  obtain ⟨s, hr, hs⟩ := exists_run (s := init twoPages) (P := fun s => (s.buf 0).isSome)
    [.allocate 2 100, .allocate 2 100, .write 0 0 [1, 2], .write 1 0 [3, 4], .capacity 0 100] (by decide +kernel)
  obtain ⟨b, hb⟩ := Option.isSome_iff_exists.mp hs
  obtain ⟨c, hc⟩ : ∃ c, (Arrays.after
      [.allocate 2 100, .allocate 2 100, .write 0 0 [1, 2], .write 1 0 [3, 4], .capacity 0 100]).array 0 = some c := ⟨_, rfl⟩
  obtain ⟨hl, -, bs, e, -, hbs⟩ := (arrays_of_run hr (by simp [Call.Proper])).2 0 b c hb hc
  cases hc
  exact ⟨s, b, hr, hb, hl, bs, e, hbs 0 1 (by decide +kernel), hbs 1 2 (by decide +kernel)⟩

end Buffers

end Nio.Pool
