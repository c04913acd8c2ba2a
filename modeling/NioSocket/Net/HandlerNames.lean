import NioSocket.Net.PipelineRun

/-!
# Names that are generated

A thread that serves any number of pipelines, with one cache of names for all of them. A handler of type
`T` that is added without a name should be called `T#n`, with the least `n` that makes a name no
context of its pipeline has (`NamedByType`). `named_by_type_iff`: that is so as long as no other handler of its
type was added without a name on the thread, to whichever pipeline; where one was, the name is empty, or
a number alone.
-/

namespace Nio.Net

open DefaultChannelPipeline

/-! ## Numbers behind a type -/

theorem number_not_mem {n : Nat} : '#' ∉ (toString n).toList := by
  rw [Nat.toString_eq_repr, Nat.toList_repr]
  intro h
  have := Nat.isDigit_of_mem_toDigits (by decide) (by decide) h
  exact absurd this (by decide)

/-- What stands behind the last number sign. -/
theorem append_number_inj {a b ds es : List Char} (hd : '#' ∉ ds) (he : '#' ∉ es)
    (h : a ++ '#' :: ds = b ++ '#' :: es) : a = b := by
  rcases List.append_eq_append_iff.mp h with ⟨m, rfl, hm⟩ | ⟨m, rfl, hm⟩
  · cases m with
    | nil => simp
    | cons c m =>
      obtain ⟨-, rfl⟩ := List.cons.inj hm
      simp at hd
  · cases m with
    | nil => simp
    | cons c m =>
      obtain ⟨-, rfl⟩ := List.cons.inj hm
      simp at he

namespace Called

theorem numbered_inj {T T' : String} {m n : Nat} (h : numbered T ++ toString m = numbered T' ++ toString n) :
    T = T' := by
  have hl := congrArg String.toList h
  rw [numbered, numbered, String.append_assoc, String.append_assoc] at hl
  simp only [String.toList_append] at hl
  exact String.toList_inj.mp (append_number_inj number_not_mem number_not_mem hl)

theorem number_not_mem_unnumbered (names : List String) (n : Nat) : '#' ∉ (unnumbered names n).toList := by
  rw [unnumbered]
  split
  · exact number_not_mem
  · simp

end Called

/-- The names of all contexts of pipeline `id`, whose contexts between the head and the tail are `l`. -/
def allNames (cls : Classes) (id : Nat) (l : List ChannelHandlerContext) : List String :=
  (headContext cls id :: (l ++ [tailContext cls id])).map (·.name_)

theorem mem_allNames {cls : Classes} {id : Nat} {l : List ChannelHandlerContext} {name : String} :
    name ∈ allNames cls id l ↔ name = generateName0 cls.headContext ∨ name ∈ takenNames cls id l := by
  rw [allNames, List.map_cons, List.mem_cons]
  rfl

/-- The name of the head is of no other type. -/
theorem leastFree_allNames {cls : Classes} {id n : Nat} {l : List ChannelHandlerContext} {T : String}
    (hT : T ≠ cls.headContext) (F : LeastFree (takenNames cls id l) (Called.numbered T) n) :
    LeastFree (allNames cls id l) (Called.numbered T) n where
  free := by
    rw [mem_allNames, not_or]
    refine ⟨fun h => hT ?_, F.free⟩
    rw [Called.generateName0_eq] at h
    exact Called.numbered_inj h
  least i hi := mem_allNames.mpr (.inr (F.least i hi))

/-! ## A thread -/

/-- A thread, and the pipelines it serves. -/
structure ServingThread where
  nameCaches : Option (String → Option String)
  pipeline : Nat → DefaultChannelPipeline

namespace ServingThread

/-- The number of a pipeline, and a call on it. -/
abbrev CallTo := Nat × DefaultChannelPipeline.Call

/-- A thread that has called no pipeline. -/
def start (cls : Classes) : ServingThread := ⟨none, .new cls⟩

def called (t : ServingThread) (i : Nat) : Called := ⟨t.nameCaches, t.pipeline i⟩

/-- A call on pipeline `i` has left it and the cache as `s`. -/
def set (t : ServingThread) (i : Nat) (s : Called) : ServingThread :=
  ⟨s.nameCaches, Function.update t.pipeline i s.pipeline⟩

@[simp] theorem set_pipeline_self (t : ServingThread) (i : Nat) (s : Called) : (t.set i s).pipeline i = s.pipeline :=
  Function.update_self ..

theorem set_pipeline_of_ne (t : ServingThread) {i j : Nat} (s : Called) (h : j ≠ i) :
    (t.set i s).pipeline j = t.pipeline j :=
  Function.update_of_ne h ..

/-- A call on a pipeline. -/
def Step (cls : Classes) (t : ServingThread) (e : CallTo) (t' : ServingThread) : Prop :=
  ∃ s, left (e.2.run cls (t.called e.1)) = some s ∧ t' = t.set e.1 s

/-- The handler `h`, added without a name, becomes the last of pipeline `i`, under the name of its type with the
least number that is free. -/
def NamedByType (cls : Classes) (t : ServingThread) (i : Nat) (h : ChannelHandler) : Prop :=
  ∃ l n t', Holds cls (t.pipeline i) l ∧ LeastFree (allNames cls i l) ((cls.of h).name ++ "#") n ∧
    Step cls t (i, .addLast "" (some h)) t' ∧
    Holds cls (t'.pipeline i) (l ++ [.new cls ((cls.of h).name ++ "#" ++ toString n) (some h)])

variable {cls : Classes} {t t' : ServingThread} {i : Nat} {h : ChannelHandler} {es : List CallTo}

/-- What the calls `es` have left: chains, and a cache of the types of the handlers without a name. -/
structure Served (cls : Classes) (es : List CallTo) (t : ServingThread) : Prop where
  chained : ∀ i, (t.pipeline i).id = i ∧ ∃ xs l, Chained cls (t.pipeline i) xs l
  cached : ∀ i T, (t.called i).Cached T ↔ ∃ e ∈ es, e.2.Unnamed cls T

theorem served_start (cls : Classes) : Served cls [] (start cls) where
  chained i := ⟨rfl, [], [], chained_new cls i⟩
  cached i T := by simp [called, start, Called.Cached]

theorem Served.step {e : CallTo} (S : Served cls es t) (h : Step cls t e t') : Served cls (es ++ [e]) t' := by
  obtain ⟨s, hs, rfl⟩ := h
  obtain ⟨hid, xs, l, C⟩ := S.chained e.1
  obtain ⟨l', R⟩ := Chained.runs_of_left (s := t.called e.1) C hs
  refine ⟨fun i => ?_, fun i T => ?_⟩
  · by_cases hi : i = e.1
    · subst hi
      obtain ⟨xs', C'⟩ := R.chained
      rw [set_pipeline_self]
      exact ⟨R.id.trans hid, xs', l', C'⟩
    · rw [set_pipeline_of_ne t s hi]
      exact S.chained i
  · refine (R.cached T).trans ?_
    rw [S.cached]
    simp [or_and_right, exists_or]

theorem served_of_run (h : Run (Step cls) (start cls) es t) : Served cls es t := by
  induction h with
  | nil => exact served_start cls
  | snoc _ hstep ih => exact ih.step hstep

/-- The first of its type gets the name it should. -/
theorem Served.namedByType (S : Served cls es t) (hT : (cls.of h).name ≠ cls.headContext)
    (hn : ∀ e ∈ es, ¬e.2.Unnamed cls (cls.of h).name) : NamedByType cls t i h := by
  obtain ⟨hid, xs, l, C⟩ := S.chained i
  have hc : ¬(t.called i).Cached (cls.of h).name := by
    rw [S.cached]
    rintro ⟨e, he, hu⟩
    exact hn e he hu
  obtain ⟨n, -, F⟩ := exists_leastFree (takenNames cls (t.pipeline i).id l) (Called.numbered (cls.of h).name)
  obtain ⟨p', ha, hid', xs', C'⟩ := Called.addLast_unnamed (Called.generateName_miss (s := t.called i) C hc F) C F.free
  have hstep : Step cls t (i, .addLast "" (some h)) (t.set i _) :=
    ⟨_, by rw [DefaultChannelPipeline.Call.run, ha, left], rfl⟩
  refine ⟨l, n, _, C.holds, leastFree_allNames hT (hid ▸ F), hstep, ?_⟩
  rw [set_pipeline_self]
  exact C'.holds

/-- Any other gets a name without its type. -/
theorem Served.not_namedByType (S : Served cls es t) (hn : ∃ e ∈ es, e.2.Unnamed cls (cls.of h).name) :
    ¬NamedByType cls t i h := by
  rintro ⟨l, n, t', H, -, ⟨s', hs', rfl⟩, H'⟩
  obtain ⟨hid, xs, l₀, C⟩ := S.chained i
  obtain ⟨m, -, F⟩ := exists_leastFree (takenNames cls (t.pipeline i).id l₀) ""
  have hg := Called.generateName_hit (s := t.called i) C ((S.cached i _).mpr hn) F
  obtain ⟨p', ha, -, xs', C'⟩ := Called.addLast_unnamed hg C (Called.unnumbered_free F)
  have hl : left ((DefaultChannelPipeline.Call.addLast "" (some h)).run cls (t.called i)) =
      some { t.called i with pipeline := p' } := by
    rw [DefaultChannelPipeline.Call.run, ha, left]
  obtain rfl := Option.some_inj.mp (hl.symm.trans hs')
  rw [set_pipeline_self] at H'
  obtain ⟨-, hctx⟩ := List.append_inj' (H'.unique C'.holds) rfl
  have hname : (cls.of h).name ++ "#" ++ toString n = Called.unnumbered (takenNames cls (t.pipeline i).id l₀) m :=
    congrArg ChannelHandlerContext.name_ (List.head_eq_of_cons_eq hctx)
  have hnot := Called.number_not_mem_unnumbered (takenNames cls (t.pipeline i).id l₀) m
  simp [← hname] at hnot

/-! ## Runs -/

/-- Handlers without names are called by their types, if and only if on the whole thread there is one of each
type. A head has a type of its own, and is nobody's to add. -/
theorem named_by_type_iff (cls : Classes) (es : List CallTo) :
    (∀ es' i h t, es' ++ [(i, .addLast "" (some h))] <+: es → (cls.of h).name ≠ cls.headContext →
        Run (Step cls) (start cls) es' t → NamedByType cls t i h) ↔
      ∀ es' i h t, es' ++ [(i, .addLast "" (some h))] <+: es → (cls.of h).name ≠ cls.headContext →
        Run (Step cls) (start cls) es' t → ∀ e ∈ es', ¬e.2.Unnamed cls (cls.of h).name := by
  constructor
  · intro hn es' i h t hp hT hr e he hu
    exact (served_of_run hr).not_namedByType ⟨e, he, hu⟩ (hn es' i h t hp hT hr)
  · intro hu es' i h t hp hT hr
    exact (served_of_run hr).namedByType hT (hu es' i h t hp hT hr)

/-- The second handler of a type, on another pipeline. -/
theorem named_by_type_not_second :
    ¬∀ es' i h t, es' ++ [(i, .addLast "" (some h))] <+:
        ([(0, .addLast "" (some (.user 0))), (1, .addLast "" (some (.user 1)))] : List CallTo) →
      (mangled.of h).name ≠ mangled.headContext → Run (Step mangled) (start mangled) es' t →
      NamedByType mangled t i h := by
  intro hn
  have hs : ∃ t, Step mangled (start mangled) (0, .addLast "" (some (.user 0))) t := by
    obtain ⟨s, l, R⟩ := Chained.runs (s := (start mangled).called 0) (c := .addLast "" (some (.user 0)))
      (chained_new mangled 0) nofun
    exact ⟨_, s, R.left, rfl⟩
  obtain ⟨t, ht⟩ := hs
  have hr := Run.one ht
  exact (served_of_run hr).not_namedByType (h := .user 1) ⟨_, List.mem_singleton_self _, .user 0, rfl, rfl⟩
    (hn _ 1 (.user 1) t (List.prefix_refl _) (by decide) hr)

end ServingThread

end Nio.Net
