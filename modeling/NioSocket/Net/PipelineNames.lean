import Mathlib.Data.List.Nodup
import Mathlib.Data.List.Range
import Mathlib.Data.List.Perm.Subperm
import Mathlib.Data.Nat.Find
import NioSocket.Net.PipelineChain

/-!
# The names of the contexts of a channel pipeline

Under which name `addLast` files a handler. A name that is given is taken as it is, unless a context
has it (`Chained.filterName_given`). A name that is left empty is generated, and is free in any case
(`Chained.generateName_eq`): if the cache of the thread has no entry for the type of the handler, it
is the type with the least free number, and else it is the empty string or, when a context has that, the
least free number alone.
-/

namespace Nio.Net

open DefaultChannelPipeline

variable {cls : Classes} {p : DefaultChannelPipeline} {xs : List Nat} {l : List ChannelHandlerContext}
  {s : Called} {name base : String} {n : Nat}

/-- The names that a search finds: of the contexts `l`, and of the tail of pipeline `id`. -/
def takenNames (cls : Classes) (id : Nat) (l : List ChannelHandlerContext) : List String :=
  (l ++ [tailContext cls id]).map (·.name_)

theorem DefaultChannelPipeline.Chained.context0_named (C : Chained cls p xs l) (name : String) :
    ∃ r, context0 (named name) p = .ok r p ∧ (r.isSome ↔ name ∈ takenNames cls p.id l) := by
  refine ⟨_, C.context0_eq _, ?_⟩
  rw [Option.isSome_iff_ne_none, Ne, C.find_eq_none]
  simp only [takenNames, List.mem_map, not_forall, not_not, named_iff, exists_prop]

/-! ## The least free number -/

/-- `n` is the least number that makes a name with `base` that is not in `names`. -/
structure LeastFree (names : List String) (base : String) (n : Nat) : Prop where
  free : base ++ toString n ∉ names
  least : ∀ i < n, base ++ toString i ∈ names

theorem LeastFree.unique {names : List String} {m : Nat} (h : LeastFree names base m) (h' : LeastFree names base n) :
    m = n := by
  rcases Nat.lt_trichotomy m n with hlt | rfl | hlt
  · exact absurd (h'.least m hlt) h.free
  · rfl
  · exact absurd (h.least n hlt) h'.free

theorem append_toString_inj {i j : Nat} (h : base ++ toString i = base ++ toString j) : i = j := by
  have hd : (toString i).toList = (toString j).toList := congrArg _ ((String.append_right_inj base).mp h)
  rw [Nat.toString_eq_repr, Nat.toString_eq_repr, Nat.toList_repr, Nat.toList_repr] at hd
  rw [← Nat.ofDigitChars_ten_toDigits (n := i), hd, Nat.ofDigitChars_ten_toDigits]

/-- Of more numbers than there are names, one is free. -/
theorem exists_leastFree (names : List String) (base : String) : ∃ n ≤ names.length, LeastFree names base n := by
  have hex : ∃ n, n ≤ names.length ∧ base ++ toString n ∉ names := by
    by_contra hc
    push Not at hc
    have hn : ((List.range (names.length + 1)).map fun i => base ++ toString i).Nodup := by
      apply List.nodup_range.map
      intro i j h
      exact append_toString_inj h
    have hs : ((List.range (names.length + 1)).map fun i => base ++ toString i).Subperm names := by
      apply hn.subperm
      intro name h
      obtain ⟨i, hi, rfl⟩ := List.mem_map.mp h
      exact hc i (Nat.lt_succ_iff.mp (List.mem_range.mp hi))
    have hle := hs.length_le
    rw [List.length_map, List.length_range] at hle
    exact Nat.not_succ_le_self _ hle
  refine ⟨Nat.find hex, (Nat.find_spec hex).1, (Nat.find_spec hex).2, fun i hi => ?_⟩
  by_contra hc
  exact Nat.find_min hex hi ⟨(Nat.lt_of_lt_of_le hi (Nat.find_spec hex).1).le, hc⟩

namespace Called

theorem onPipeline_ok {α : Type} {m : Method DefaultChannelPipeline α} {a : α} {p : DefaultChannelPipeline}
    (h : m s.pipeline = .ok a p) : onPipeline m s = .ok a { s with pipeline := p } := by
  simp [onPipeline, h]

/-- The search ends at the least number that is free. -/
theorem nameLoop_eq (C : Chained cls s.pipeline xs l) (F : LeastFree (takenNames cls s.pipeline.id l) base n)
    {fuel i : Nat} (hi : i ≤ n) (hf : n < i + fuel) : nameLoop base fuel i s = .ok (base ++ toString n) s := by
  induction fuel generalizing i with
  | zero => omega
  | succ fuel ih =>
    obtain ⟨r, hr, hn⟩ := C.context0_named (base ++ toString i)
    rw [nameLoop, Method.bind_apply, onPipeline_ok hr, Outcome.bind_ok]
    rcases Nat.lt_or_eq_of_le hi with hlt | rfl
    · obtain ⟨c, rfl⟩ := Option.isSome_iff_exists.mp (hn.mpr (F.least i hlt))
      exact ih hlt (by omega)
    · obtain rfl : r = none := by
        rw [← Option.not_isSome_iff_eq_none, hn]
        exact F.free
      rfl

/-- What `generateName` puts before the number for a handler of a type that the cache has no entry for. -/
def numbered (handlerType : String) : String := handlerType ++ "#"

theorem generateName0_eq (handlerType : String) : generateName0 handlerType = numbered handlerType ++ toString 0 := by
  rw [generateName0, numbered, String.append_assoc]
  rfl

theorem baseName_generateName0 (handlerType : String) :
    baseName (generateName0 handlerType) = numbered handlerType := by
  rw [baseName, generateName0, numbered, ← String.toList_inj]
  simp

/-- A name that is taken is made free. -/
theorem generateName_of {s' : Called} {h : ChannelHandler} (hc : cachedName (cls.of h).name s = .ok name s')
    (C : Chained cls s'.pipeline xs l) (F : LeastFree (takenNames cls s'.pipeline.id l) (baseName name) n) :
    generateName cls (some h) s =
      .ok (if name ∈ takenNames cls s'.pipeline.id l then baseName name ++ toString n else name) s' := by
  obtain ⟨r, hr, hn⟩ := C.context0_named name
  simp only [generateName, Method.bind_apply, hc, Outcome.bind_ok, onPipeline_ok hr, Method.ite_apply]
  by_cases hm : name ∈ takenNames cls s'.pipeline.id l
  · obtain ⟨m, hm', F'⟩ := exists_leastFree (takenNames cls s'.pipeline.id l) (baseName name)
    obtain rfl := F.unique F'
    have hle := C.length_le
    rw [if_pos (hn.mpr hm), if_pos hm]
    apply nameLoop_eq C F (Nat.zero_le _)
    simp [takenNames] at hm'
    omega
  · rw [if_neg (mt hn.mp hm), if_neg hm]
    rfl

/-- The cache of the thread has an entry for the type. -/
def Cached (s : Called) (handlerType : String) : Prop := (s.nameCaches.bind (· handlerType)).isSome

/-- The thread has added an entry for the type. -/
def cache (s : Called) (handlerType : String) : Called :=
  { s with nameCaches := some (Function.update (s.nameCaches.getD fun _ => none) handlerType
      (some (generateName0 handlerType))) }

theorem cachedName_miss {handlerType : String} (h : ¬s.Cached handlerType) :
    cachedName handlerType s = .ok (generateName0 handlerType) (s.cache handlerType) := by
  have hn : (s.nameCaches.getD fun _ => none) handlerType = none := by
    cases hs : s.nameCaches with
    | none => rfl
    | some c => simpa [Cached, hs] using h
  simp [cachedName, hn, cache]

theorem cachedName_hit {handlerType : String} (h : s.Cached handlerType) : cachedName handlerType s = .ok "" s := by
  obtain ⟨caches, p⟩ := s
  cases caches with
  | none => simp [Cached] at h
  | some c =>
    obtain ⟨name, hn⟩ := Option.isSome_iff_exists.mp (show (c handlerType).isSome from h)
    simp [cachedName, hn]

/-- The first unnamed handler of its type on the thread gets the least number that is free behind the type. -/
theorem generateName_miss {h : ChannelHandler} (C : Chained cls s.pipeline xs l) (hc : ¬s.Cached (cls.of h).name)
    (F : LeastFree (takenNames cls s.pipeline.id l) (numbered (cls.of h).name) n) :
    generateName cls (some h) s = .ok (numbered (cls.of h).name ++ toString n) (s.cache (cls.of h).name) := by
  rw [generateName_of (cachedName_miss hc) C (by rw [baseName_generateName0]; exact F), baseName_generateName0]
  split
  · rfl
  · next hm =>
    have F0 : LeastFree (takenNames cls s.pipeline.id l) (numbered (cls.of h).name) 0 :=
      ⟨by rwa [← generateName0_eq], nofun⟩
    rw [F.unique F0, generateName0_eq]

/-- The name of a handler of a type that the cache has an entry for, where `n` is the least free number. -/
def unnumbered (names : List String) (n : Nat) : String := if "" ∈ names then toString n else ""

theorem unnumbered_free {names : List String} (F : LeastFree names "" n) : unnumbered names n ∉ names := by
  rw [unnumbered]
  split
  · simpa using F.free
  · assumption

/-- Any later one gets no name, or a number alone. -/
theorem generateName_hit {h : ChannelHandler} (C : Chained cls s.pipeline xs l) (hc : s.Cached (cls.of h).name)
    (F : LeastFree (takenNames cls s.pipeline.id l) "" n) :
    generateName cls (some h) s = .ok (unnumbered (takenNames cls s.pipeline.id l) n) s := by
  rw [generateName_of (cachedName_hit hc) C F]
  rfl

theorem cached_cache {handlerType handlerType' : String} :
    (s.cache handlerType).Cached handlerType' ↔ s.Cached handlerType' ∨ handlerType' = handlerType := by
  by_cases h : handlerType' = handlerType
  · simp [Cached, cache, h]
  · cases hs : s.nameCaches <;> simp [Cached, cache, h, hs]

/-- A generated name is free. -/
theorem generateName_free (C : Chained cls s.pipeline xs l) (h : ChannelHandler) :
    ∃ name s', generateName cls (some h) s = .ok name s' ∧ s'.pipeline = s.pipeline ∧
      name ∉ takenNames cls s.pipeline.id l ∧
      ∀ handlerType, s'.Cached handlerType ↔ s.Cached handlerType ∨ handlerType = (cls.of h).name := by
  by_cases hc : s.Cached (cls.of h).name
  · obtain ⟨n, -, F⟩ := exists_leastFree (takenNames cls s.pipeline.id l) ""
    refine ⟨_, s, generateName_hit C hc F, rfl, unnumbered_free F, fun handlerType => (or_iff_left_of_imp ?_).symm⟩
    rintro rfl
    exact hc
  · obtain ⟨n, -, F⟩ := exists_leastFree (takenNames cls s.pipeline.id l) (numbered (cls.of h).name)
    exact ⟨_, _, generateName_miss C hc F, rfl, F.free, fun _ => cached_cache⟩

/-! ## Additions -/

theorem addLast_of {s' : Called} {given : String} {handler : Option ChannelHandler}
    (hf : filterName cls given handler s = .ok name s') (C : Chained cls s'.pipeline xs l)
    (hn : name ∉ takenNames cls s'.pipeline.id l) :
    ∃ p', addLast cls given handler s = .ok () { s' with pipeline := p' } ∧ p'.id = s'.pipeline.id ∧
      ∃ xs', Chained cls p' xs' (l ++ [.new cls name handler]) := by
  obtain ⟨p', ha, hid, C'⟩ := C.append (show (ChannelHandlerContext.new cls name handler).name_ ∉ _ from hn)
  refine ⟨p', ?_, hid, _, C'⟩
  rw [addLast, Method.bind_apply, hf, Outcome.bind_ok, Method.bind_apply]
  obtain ⟨c, q, hc, hq⟩ := Outcome.bind_eq_ok ha
  rw [onPipeline_ok hc, Outcome.bind_ok, onPipeline_ok hq]

theorem checkDuplicateName_eq (C : Chained cls p xs l) (name : String) :
    checkDuplicateName name p =
      if name ∈ takenNames cls p.id l then .throw ("Duplicate handler name:" ++ cStr name) p else .ok () p := by
  obtain ⟨r, hr, hn⟩ := C.context0_named name
  simp only [checkDuplicateName, Method.bind_apply, hr, Outcome.bind_ok, Method.ite_apply, hn]
  rfl

/-- An addition under a name that is given, and that no context has. -/
theorem addLast_given (C : Chained cls s.pipeline xs l) (handler : Option ChannelHandler) (hne : name ≠ "")
    (hn : name ∉ takenNames cls s.pipeline.id l) :
    ∃ p', addLast cls name handler s = .ok () { s with pipeline := p' } ∧ p'.id = s.pipeline.id ∧
      ∃ xs', Chained cls p' xs' (l ++ [.new cls name handler]) := by
  have hc := checkDuplicateName_eq C name
  rw [if_neg hn] at hc
  have hf : filterName cls name handler s = .ok name s := by
    rw [filterName, if_neg hne, Method.bind_apply, onPipeline_ok hc]
    rfl
  exact addLast_of hf C hn

/-- An addition under a name that a context has. -/
theorem addLast_duplicate (C : Chained cls s.pipeline xs l) (handler : Option ChannelHandler) (hne : name ≠ "")
    (hn : name ∈ takenNames cls s.pipeline.id l) :
    addLast cls name handler s = .throw ("Duplicate handler name:" ++ cStr name) s := by
  have hc := checkDuplicateName_eq C name
  rw [if_pos hn] at hc
  simp [addLast, filterName, hne, Method.bind_apply, onPipeline, hc]

/-- An addition under a name that is generated. -/
theorem addLast_unnamed {s' : Called} {h : ChannelHandler} (hg : generateName cls (some h) s = .ok name s')
    (C : Chained cls s'.pipeline xs l) (hn : name ∉ takenNames cls s'.pipeline.id l) :
    ∃ p', addLast cls "" (some h) s = .ok () { s' with pipeline := p' } ∧ p'.id = s'.pipeline.id ∧
      ∃ xs', Chained cls p' xs' (l ++ [.new cls name (some h)]) :=
  addLast_of hg C hn

/-- The type of a handler that is null cannot be asked for. -/
theorem addLast_null : addLast cls "" none s = .ub := rfl

end Called

end Nio.Net
