import Mathlib.Data.List.Chain
import Mathlib.Logic.Function.Basic

/-!
# Doubly linked lists

Objects with a `next` and a `prev` pointer. In a ring (`Ring`) the links lead from
a head through its members and back to the head; in a list that ends (`Ended`) they lead
from the first member to null. `Rings` and `Lists` are families of these, over
members that each belong to one of them or to none. The edits are those of an
intrusive list: linking in behind the head, and unlinking.
-/

namespace Nio

variable {α ι : Type*} {next prev next' prev' : α → Option α} {a b h p n x y : α} {l xs ys : List α}

/-- Consecutive objects are linked both ways. -/
def Links (next prev : α → Option α) (l : List α) : Prop :=
  l.IsChain fun a b => next a = some b ∧ prev b = some a

/-- Links are the `next` of all objects but the last, and the `prev` of all but the first. -/
theorem Links.congr (hl : Links next prev l) (hn : ∀ a ∈ l.dropLast, next' a = next a)
    (hp : ∀ a ∈ l.tail, prev' a = prev a) : Links next' prev' l := by
  induction l with
  | nil => exact .nil
  | cons a l ih =>
    cases l with
    | nil => exact .singleton a
    | cons b l =>
      obtain ⟨⟨h1, h2⟩, hr⟩ := List.isChain_cons_cons.mp hl
      refine List.isChain_cons_cons.mpr ⟨⟨?_, ?_⟩, ih hr ?_ ?_⟩
      · rw [hn a (by simp), h1]
      · rw [hp b (by simp), h2]
      · intro x hx
        exact hn x (by simp [hx])
      · intro x hx
        exact hp x (List.mem_cons_of_mem _ hx)

/-! ## Rings -/

/-- The ring of a head, with its members in order. -/
structure Ring (next prev : α → Option α) (h : α) (xs : List α) : Prop where
  links : Links next prev (h :: (xs ++ [h]))
  nodup : (h :: xs).Nodup

namespace Ring

theorem notMem (r : Ring next prev h xs) : h ∉ xs := (List.nodup_cons.mp r.nodup).1

/-- The head of a ring without members points to itself. -/
theorem nil (hn : next h = some h) (hp : prev h = some h) : Ring next prev h [] :=
  ⟨List.isChain_pair.mpr ⟨hn, hp⟩, by simp⟩

theorem congr (r : Ring next prev h xs) (hn : ∀ a ∈ h :: xs, next' a = next a)
    (hp : ∀ a ∈ h :: xs, prev' a = prev a) : Ring next' prev' h xs := by
  refine ⟨r.links.congr (fun a ha => hn a ?_) fun a ha => hp a ?_, r.nodup⟩
  · rwa [← List.cons_append, List.dropLast_concat] at ha
  · simpa [or_comm] using ha

theorem next_head (r : Ring next prev h xs) : next h = some (xs.headD h) := by
  have hl := r.links
  cases xs with
  | nil => exact (List.isChain_pair.mp hl).1
  | cons x xs => exact (List.isChain_cons_cons.mp hl).1.1

/-- Only the head of a ring without members points to itself. -/
theorem next_head_eq_iff (r : Ring next prev h xs) : next h = some h ↔ xs = [] := by
  rw [r.next_head, Option.some_inj]
  cases xs with
  | nil => simp
  | cons x xs =>
    have hx := r.notMem
    simp only [List.headD_cons, reduceCtorEq, iff_false]
    rintro rfl
    exact hx (by simp)

/-- What is around a member: `p` before it and `n` behind, each of them the head or a member. -/
theorem split (r : Ring next prev h xs) (hx : x ∈ xs) :
    ∃ s t qs p n rest, xs = s ++ x :: t ∧ h :: s = qs ++ [p] ∧ t ++ [h] = n :: rest ∧
      Links next prev (qs ++ [p]) ∧ Links next prev (n :: rest) ∧
      (next p = some x ∧ prev x = some p) ∧ next x = some n ∧ prev n = some x := by
  obtain ⟨s, t, rfl⟩ := List.append_of_mem hx
  obtain ⟨qs, p, hp⟩ : ∃ qs p, h :: s = qs ++ [p] :=
    ⟨_, _, (List.dropLast_append_getLast (List.cons_ne_nil h s)).symm⟩
  obtain ⟨n, rest, hn⟩ : ∃ n rest, t ++ [h] = n :: rest := List.exists_cons_of_ne_nil (by simp)
  have e : h :: (s ++ x :: t ++ [h]) = qs ++ p :: x :: n :: rest := by
    rw [← List.cons_append, ← List.cons_append, hp, List.append_assoc, List.cons_append, hn]
    simp
  have hl := r.links
  rw [Links, e, List.isChain_append_cons_cons, List.isChain_cons_cons] at hl
  exact ⟨s, t, qs, p, n, rest, rfl, hp, hn, hl.1, hl.2.2.2, hl.2.1, hl.2.2.1⟩

theorem links_of_mem (r : Ring next prev h xs) (hx : x ∈ xs) : ∃ p n, prev x = some p ∧ next x = some n ∧
    p ≠ x ∧ n ≠ x ∧ p ∈ h :: xs ∧ n ∈ h :: xs := by
  obtain ⟨s, t, qs, p, n, rest, rfl, hp, hn, -, -, ⟨-, h1⟩, h2, -⟩ := r.split hx
  have hps : p ∈ h :: s := by simp [hp]
  have hnt : n ∈ t ++ [h] := by simp [hn]
  have hd := r.nodup
  rw [← List.cons_append] at hd
  refine ⟨p, n, h1, h2, ?_, ?_, ?_, ?_⟩
  · rintro rfl
    exact (List.nodup_append.mp hd).2.2 p hps p (by simp) rfl
  · rintro rfl
    rcases List.mem_append.mp hnt with ht | ht
    · exact (List.nodup_cons.mp (List.nodup_append.mp hd).2.1).1 ht
    · obtain rfl : n = h := by simpa using ht
      exact r.notMem hx
  · simp only [List.mem_cons, List.mem_append] at hps ⊢
    tauto
  · simp only [List.mem_cons, List.mem_append, List.not_mem_nil, or_false] at hnt ⊢
    tauto

/-- Both links of a member lead to the same object only if it is the only member. -/
theorem prev_eq_next_iff (r : Ring next prev h xs) (hx : x ∈ xs) : prev x = next x ↔ xs = [x] := by
  constructor
  · intro he
    obtain ⟨s, t, qs, p, n, rest, rfl, hp, hn, -, -, ⟨-, h1⟩, h2, -⟩ := r.split hx
    have hd := r.nodup
    obtain rfl : p = n := Option.some_inj.mp (h1.symm.trans (he.trans h2))
    -- `p` is in `h :: s` and in `t ++ [h]`, so it is the head, first and last
    have hps : p ∈ h :: s := by simp [hp]
    have hpt : p ∈ t ++ [h] := by simp [hn]
    obtain rfl : p = h := by
      rw [← List.cons_append] at hd
      rcases List.mem_append.mp hpt with ht | ht
      · exact absurd rfl ((List.nodup_append.mp hd).2.2 p hps p (by simp [ht]))
      · simpa using ht
    have hs : s = [] := by
      rcases s.eq_nil_or_concat with rfl | ⟨s', z, rfl⟩
      · rfl
      · rw [List.concat_eq_append, ← List.cons_append] at hp
        obtain rfl : z = p := by simpa using (List.append_inj' hp rfl).2
        simp at hd
    have ht : t = [] := by
      cases t with
      | nil => rfl
      | cons z t =>
        obtain rfl := (List.cons.inj hn).1
        simp at hd
    simp [hs, ht]
  · rintro rfl
    have hl := r.links
    simp only [Links, List.cons_append, List.nil_append, List.isChain_cons_cons] at hl
    rw [hl.1.2, hl.2.1.1]

variable [DecidableEq α]

/-- Linking in an object behind the head. -/
theorem link (r : Ring next prev h xs) (hx : x ∉ h :: xs) (hf : next h = some y) :
    Ring (Function.update (Function.update next x (some y)) h (some x))
      (Function.update (Function.update prev x (some h)) y (some x)) h (x :: xs) := by
  have hd := List.nodup_cons.mp r.nodup
  have hl := r.links
  obtain ⟨hxh, hxs⟩ : x ≠ h ∧ x ∉ xs := by simpa using hx
  refine ⟨?_, List.nodup_cons.mpr ⟨by simpa [hxh.symm] using hd.1, List.nodup_cons.mpr ⟨hxs, hd.2⟩⟩⟩
  obtain ⟨rest, e⟩ : ∃ rest, xs ++ [h] = y :: rest := by
    rw [r.next_head, Option.some_inj] at hf
    subst hf
    cases xs with
    | nil => exact ⟨[], rfl⟩
    | cons y xs => exact ⟨xs ++ [h], rfl⟩
  have hnd : (y :: rest).Nodup := by
    rw [← e, List.perm_append_singleton h xs |>.nodup_iff]
    exact r.nodup
  have hxy : x ≠ y := by
    rintro rfl
    have : x ∈ xs ++ [h] := by simp [e]
    simp [hxh, hxs] at this
  rw [e] at hl
  rw [List.cons_append, e]
  refine List.isChain_cons_cons.mpr ⟨⟨Function.update_self .., ?_⟩, List.isChain_cons_cons.mpr ⟨⟨?_, ?_⟩, ?_⟩⟩
  · rw [Function.update_of_ne hxy, Function.update_self]
  · rw [Function.update_of_ne hxh, Function.update_self]
  · exact Function.update_self ..
  · refine Links.congr (List.isChain_cons_cons.mp hl).2 (fun z hz => ?_) fun z hz => ?_
    · rw [← e, List.dropLast_concat] at hz
      rw [Function.update_of_ne, Function.update_of_ne]
      · rintro rfl; exact hxs hz
      · rintro rfl; exact hd.1 hz
    · have hz' : z ∈ xs ++ [h] := e ▸ List.mem_cons_of_mem y hz
      rw [Function.update_of_ne, Function.update_of_ne]
      · rintro rfl
        simp [hxh, hxs] at hz'
      · rintro rfl
        exact (List.nodup_cons.mp hnd).1 hz

/-- Unlinking a member. -/
theorem unlink (r : Ring next prev h xs) (hx : x ∈ xs) (hp : prev x = some p) (hn : next x = some n) :
    Ring (Function.update (Function.update next p (some n)) x none)
      (Function.update (Function.update prev n (some p)) x none) h (xs.erase x) := by
  have hnd := List.nodup_cons.mp r.nodup
  obtain ⟨s, t, qs, q, m, rest, rfl, hq, hm, hlq, hlm, ⟨-, hqx⟩, hxm, -⟩ := r.split hx
  obtain rfl : p = q := Option.some_inj.mp (hp.symm.trans hqx)
  obtain rfl : n = m := Option.some_inj.mp (hn.symm.trans hxm)
  obtain ⟨hds, hdt, hst⟩ := List.nodup_append.mp hnd.2
  obtain ⟨hxt, hdt⟩ := List.nodup_cons.mp hdt
  have hxs : x ∉ s := fun hs => hst x hs x (by simp) rfl
  have hhs : h ∉ s := fun hs => hnd.1 (by simp [hs])
  have hht : h ∉ t := fun ht => hnd.1 (by simp [ht])
  have hxh : x ≠ h := by rintro rfl; exact hnd.1 hx
  have hps : p ∈ h :: s := by simp [hq]
  have hnt : n ∈ t ++ [h] := by simp [hm]
  have he : (s ++ x :: t).erase x = s ++ t := by
    rw [List.erase_append_right _ hxs, List.erase_cons_head]
  have hdq : (qs ++ [p]).Nodup := by rw [← hq]; exact List.nodup_cons.mpr ⟨hhs, hds⟩
  have hdm : (n :: rest).Nodup := by
    rw [← hm, List.perm_append_singleton h t |>.nodup_iff]
    exact List.nodup_cons.mpr ⟨hht, hdt⟩
  have hpt : p ∉ t := by
    rcases List.mem_cons.mp hps with rfl | hp
    · exact hht
    · exact fun ht => hst p hp p (by simp [ht]) rfl
  have hns : n ∉ s := by
    rcases List.mem_append.mp hnt with ht | hn
    · exact fun hs => hst n hs n (by simp [ht]) rfl
    · obtain rfl : n = h := by simpa using hn
      exact hhs
  have hpx : p ≠ x := by rintro rfl; simp [hxh, hxs] at hps
  have hnx : n ≠ x := by rintro rfl; simp [hxh, hxt] at hnt
  rw [he]
  refine ⟨?_, List.nodup_cons.mpr ⟨by simp [hhs, hht], List.nodup_append.mpr ⟨hds, hdt, fun a ha b hb =>
    hst a ha b (by simp [hb])⟩⟩⟩
  rw [List.append_assoc, hm, ← List.cons_append, hq, List.append_assoc, List.singleton_append, Links,
    List.isChain_append_cons_cons]
  refine ⟨Links.congr hlq (fun z hz => ?_) fun z hz => ?_, ⟨?_, ?_⟩, Links.congr hlm (fun z hz => ?_) fun z hz => ?_⟩
  · -- all before `p`
    rw [List.dropLast_concat] at hz
    have hz' : z ∈ h :: s := by simp [hq, hz]
    rw [Function.update_of_ne, Function.update_of_ne]
    · rintro rfl
      exact (List.nodup_append.mp hdq).2.2 z hz z (by simp) rfl
    · rintro rfl; simp [hxh, hxs] at hz'
  · rw [← hq, List.tail_cons] at hz
    rw [Function.update_of_ne, Function.update_of_ne]
    · rintro rfl; exact hns hz
    · rintro rfl; exact hxs hz
  · rw [Function.update_of_ne hpx, Function.update_self]
  · rw [Function.update_of_ne hnx, Function.update_self]
  · -- all behind `n`
    rw [← hm, List.dropLast_concat] at hz
    rw [Function.update_of_ne, Function.update_of_ne]
    · rintro rfl; exact hpt hz
    · rintro rfl; exact hxt hz
  · have hz' : z ∈ t ++ [h] := by simp [hm, show z ∈ rest from hz]
    rw [Function.update_of_ne, Function.update_of_ne]
    · rintro rfl; exact (List.nodup_cons.mp hdm).1 hz
    · rintro rfl; simp [hxh, hxt] at hz'

end Ring

/-! ## A family of rings -/

/-- A ring for each head. `ringOf` gives the head of the ring an object is a member of, if
it is of one; what is neither a head nor a member has null links. -/
structure Rings (next prev : α → Option α) (head : α → Prop) (ringOf : α → Option α) : Prop where
  ring : ∀ h, head h → ∃ xs, Ring next prev h xs ∧ ∀ x, x ∈ xs ↔ ringOf x = some h
  head_of : ∀ x h, ringOf x = some h → head h
  head_apart : ∀ h, head h → ringOf h = none
  null : ∀ x, ¬head x → ringOf x = none → next x = none ∧ prev x = none

namespace Rings

variable {head : α → Prop} {ringOf : α → Option α}

/-- No ring has a member. -/
theorem empty (hh : ∀ h, head h → next h = some h ∧ prev h = some h)
    (hn : ∀ x, ¬head x → next x = none ∧ prev x = none) : Rings next prev head fun _ => none where
  ring h hd := ⟨[], .nil (hh h hd).1 (hh h hd).2, by simp⟩
  head_of := by simp
  head_apart _ _ := rfl
  null x hx _ := hn x hx

section

variable (R : Rings next prev head ringOf)
include R

theorem not_head (hx : ringOf x = some h) : ¬head x := fun hd => by
  rw [R.head_apart x hd] at hx
  cases hx

/-- The object behind a head is the first member, or the head itself. -/
theorem next_head (hd : head h) : ∃ y, next h = some y ∧ (y = h ∨ ringOf y = some h) ∧
    (y = h → ∀ x, ringOf x ≠ some h) := by
  obtain ⟨xs, r, hm⟩ := R.ring h hd
  refine ⟨_, r.next_head, ?_, fun he x hx => ?_⟩
  · cases xs with
    | nil => exact .inl rfl
    | cons x xs => exact .inr ((hm x).mp (by simp))
  · rw [← hm, (r.next_head_eq_iff).mp (r.next_head.trans (congrArg some he))] at hx
    cases hx

theorem links_of (hx : ringOf x = some h) : ∃ p n, prev x = some p ∧ next x = some n ∧ p ≠ x ∧ n ≠ x ∧
    (p = h ∨ ringOf p = some h) ∧ (n = h ∨ ringOf n = some h) := by
  obtain ⟨xs, r, hm⟩ := R.ring h (R.head_of x h hx)
  obtain ⟨p, n, hp, hn, hpx, hnx, hps, hns⟩ := r.links_of_mem ((hm x).mpr hx)
  simp only [List.mem_cons, hm] at hps hns
  exact ⟨p, n, hp, hn, hpx, hnx, hps, hns⟩

theorem prev_eq_next_iff (hx : ringOf x = some h) : prev x = next x ↔ ∀ y, ringOf y = some h → y = x := by
  obtain ⟨xs, r, hm⟩ := R.ring h (R.head_of x h hx)
  have hmem := (hm x).mpr hx
  rw [r.prev_eq_next_iff hmem]
  constructor
  · rintro rfl y hy
    simpa using (hm y).mpr hy
  · intro hy
    have hall : ∀ y ∈ xs, y = x := fun y h => hy y ((hm y).mp h)
    have hd := (List.nodup_cons.mp r.nodup).2
    cases xs with
    | nil => cases hmem
    | cons y ys =>
      obtain rfl := hall y (by simp)
      cases ys with
      | nil => rfl
      | cons z zs =>
        obtain rfl := hall z (by simp)
        simp at hd

variable [DecidableEq α]

/-- Linking in an object that is in no ring. -/
theorem link (hd : head h) (hx : ¬head x) (hr : ringOf x = none) (hf : next h = some y) :
    Rings (Function.update (Function.update next x (some y)) h (some x))
      (Function.update (Function.update prev x (some h)) y (some x)) head
      (Function.update ringOf x (some h)) := by
  have hxh : x ≠ h := by rintro rfl; exact hx hd
  obtain ⟨y', hy', hy, -⟩ := R.next_head hd
  obtain rfl := Option.some_inj.mp (hf.symm.trans hy')
  refine ⟨fun g hg => ?_, fun z g hz => ?_, fun g hg => ?_, fun z hz hn => ?_⟩
  · obtain ⟨xs, r, hm⟩ := R.ring g hg
    have hxg : x ∉ g :: xs := by
      rw [List.mem_cons, hm, hr]
      rintro (rfl | hc)
      · exact hx hg
      · cases hc
    by_cases he : g = h
    · subst he
      refine ⟨x :: xs, r.link hxg hf, fun z => ?_⟩
      by_cases hz : z = x
      · subst hz; simp
      · simp [hz, hm]
    · refine ⟨xs, r.congr (fun z hz => ?_) (fun z hz => ?_), fun z => ?_⟩
      · rw [Function.update_of_ne, Function.update_of_ne]
        · rintro rfl; exact hxg hz
        · rintro rfl
          rw [List.mem_cons, hm, R.head_apart z hd] at hz
          rcases hz with rfl | hz
          · exact he rfl
          · cases hz
      · rw [Function.update_of_ne, Function.update_of_ne]
        · rintro rfl; exact hxg hz
        · rintro rfl
          rw [List.mem_cons, hm] at hz
          rcases hy with rfl | hy
          · rcases hz with rfl | hz
            · exact he rfl
            · rw [R.head_apart z hd] at hz; cases hz
          · rcases hz with rfl | hz
            · exact R.not_head hy hg
            · exact he (Option.some_inj.mp (hz.symm.trans hy))
      · by_cases hz : z = x
        · subst hz
          simp only [Function.update_self, Option.some_inj, Ne.symm he, iff_false]
          exact fun hc => hxg (List.mem_cons_of_mem _ hc)
        · rw [Function.update_of_ne hz, hm]
  · by_cases hzx : z = x
    · subst hzx
      rw [Function.update_self] at hz
      exact Option.some_inj.mp hz ▸ hd
    · rw [Function.update_of_ne hzx] at hz
      exact R.head_of z g hz
  · rw [Function.update_of_ne (by rintro rfl; exact hx hg), R.head_apart g hg]
  · have hzx : z ≠ x := by rintro rfl; simp at hn
    rw [Function.update_of_ne hzx] at hn
    have hzy : z ≠ y := by
      rintro rfl
      rcases hy with rfl | hy
      · exact hz hd
      · rw [hn] at hy; cases hy
    rw [Function.update_of_ne (by rintro rfl; exact hz hd), Function.update_of_ne hzx, Function.update_of_ne hzy,
      Function.update_of_ne hzx]
    exact R.null z hz hn

/-- Unlinking a member. -/
theorem unlink (hr : ringOf x = some h) (hp : prev x = some p) (hn : next x = some n) :
    Rings (Function.update (Function.update next p (some n)) x none)
      (Function.update (Function.update prev n (some p)) x none) head (Function.update ringOf x none) := by
  obtain ⟨p', n', hp', hn', -, -, hpr, hnr⟩ := R.links_of hr
  obtain rfl := Option.some_inj.mp (hp.symm.trans hp')
  obtain rfl := Option.some_inj.mp (hn.symm.trans hn')
  have hd := R.head_of x h hr
  have hx := R.not_head hr
  -- what is in the ring of `h` is in no other
  have apart : ∀ g xs z, head g → g ≠ h → (∀ x, x ∈ xs ↔ ringOf x = some g) → (z = h ∨ ringOf z = some h) →
      z ∉ g :: xs := by
    intro g xs z hg he hm hz hc
    rw [List.mem_cons, hm] at hc
    rcases hz with rfl | hz
    · rcases hc with rfl | hc
      · exact he rfl
      · rw [R.head_apart z hd] at hc; cases hc
    · rcases hc with rfl | hc
      · exact R.not_head hz hg
      · exact he (Option.some_inj.mp (hc.symm.trans hz))
  refine ⟨fun g hg => ?_, fun z g hz => ?_, fun g hg => ?_, fun z hz hrz => ?_⟩
  · obtain ⟨xs, r, hm⟩ := R.ring g hg
    by_cases he : g = h
    · subst he
      refine ⟨xs.erase x, r.unlink ((hm x).mpr hr) hp hn, fun z => ?_⟩
      rw [(List.nodup_cons.mp r.nodup).2.mem_erase_iff, hm]
      by_cases hz : z = x
      · subst hz; simp
      · simp [hz]
    · have hmem : ∀ z w, z ∈ g :: xs → (w = h ∨ ringOf w = some h) → z ≠ w := by
        rintro z w hz hw rfl
        exact apart g xs z hg he hm hw hz
      refine ⟨xs, r.congr (fun z hz => ?_) (fun z hz => ?_), fun z => ?_⟩
      · rw [Function.update_of_ne (hmem z x hz (.inr hr)), Function.update_of_ne (hmem z p hz hpr)]
      · rw [Function.update_of_ne (hmem z x hz (.inr hr)), Function.update_of_ne (hmem z n hz hnr)]
      · by_cases hz : z = x
        · subst hz
          simp only [Function.update_self, reduceCtorEq, iff_false]
          exact fun hc => apart g xs z hg he hm (.inr hr) (List.mem_cons_of_mem _ hc)
        · rw [Function.update_of_ne hz, hm]
  · by_cases hzx : z = x
    · subst hzx
      simp at hz
    · rw [Function.update_of_ne hzx] at hz
      exact R.head_of z g hz
  · rw [Function.update_of_ne (by rintro rfl; exact hx hg), R.head_apart g hg]
  · by_cases hzx : z = x
    · subst hzx
      simp
    · rw [Function.update_of_ne hzx] at hrz
      have key : ∀ w, (w = h ∨ ringOf w = some h) → z ≠ w := by
        rintro w hw rfl
        rcases hw with rfl | hw
        · exact hz hd
        · rw [hrz] at hw; cases hw
      rw [Function.update_of_ne hzx, Function.update_of_ne (key p hpr), Function.update_of_ne hzx,
        Function.update_of_ne (key n hnr)]
      exact R.null z hz hrz

end

end Rings

/-! ## Lists that end -/

/-- From `first` on, behind `p`, the links lead through the members to null. -/
def Ended (next prev : α → Option α) : Option α → Option α → List α → Prop
  | _, first, [] => first = none
  | p, first, x :: xs => first = some x ∧ prev x = p ∧ Ended next prev (some x) (next x) xs

namespace Ended

variable {p first : Option α}

theorem congr (e : Ended next prev p first xs) (hn : ∀ x ∈ xs, next' x = next x) (hp : ∀ x ∈ xs, prev' x = prev x) :
    Ended next' prev' p first xs := by
  induction xs generalizing p first with
  | nil => exact e
  | cons x xs ih =>
    obtain ⟨h1, h2, h3⟩ := e
    refine ⟨h1, (hp x (by simp)).trans h2, ?_⟩
    rw [hn x (by simp)]
    exact ih h3 (fun y hy => hn y (by simp [hy])) fun y hy => hp y (by simp [hy])

/-- What stands behind an element. -/
theorem behind (e : Ended next prev p first (xs ++ y :: ys)) : Ended next prev (some y) (next y) ys := by
  induction xs generalizing p first with
  | nil => exact e.2.2
  | cons x xs ih => exact ih e.2.2

theorem first_mem (e : Ended next prev p (some x) xs) : x ∈ xs := by
  cases xs with
  | nil => cases e
  | cons y ys => simp [Option.some_inj.mp e.1]

theorem prev_of_mem (e : Ended next prev p first xs) (hx : x ∈ xs) :
    (first = some x ∧ prev x = p) ∨ ∃ y ∈ xs, prev x = some y := by
  induction xs generalizing p first with
  | nil => cases hx
  | cons z xs ih =>
    obtain ⟨h1, h2, h3⟩ := e
    rcases List.mem_cons.mp hx with rfl | hx
    · exact .inl ⟨h1, h2⟩
    · rcases ih h3 hx with ⟨-, h⟩ | ⟨y, hy, h⟩
      · exact .inr ⟨z, by simp, h⟩
      · exact .inr ⟨y, by simp [hy], h⟩

theorem next_of_mem (e : Ended next prev p first xs) (hx : x ∈ xs) (hy : next x = some y) : y ∈ xs := by
  induction xs generalizing p first with
  | nil => cases hx
  | cons z xs ih =>
    obtain ⟨h1, h2, h3⟩ := e
    rcases List.mem_cons.mp hx with rfl | hx
    · rw [hy] at h3
      exact List.mem_cons_of_mem _ h3.first_mem
    · exact List.mem_cons_of_mem _ (ih h3 hx)

theorem prev_first (e : Ended next prev p (some x) xs) : prev x = p := by
  cases xs with
  | nil => cases e
  | cons y ys =>
    obtain rfl := Option.some_inj.mp e.1
    exact e.2.1

/-- The links lead one way. -/
theorem unique {q : Option α} (e : Ended next prev p first xs) (e' : Ended next prev q first ys) : xs = ys := by
  induction xs generalizing p q first ys with
  | nil =>
    obtain rfl : first = none := e
    cases ys with
    | nil => rfl
    | cons => cases e'.1
  | cons x xs ih =>
    obtain ⟨rfl, -, h3⟩ := e
    cases ys with
    | nil => cases e'
    | cons y ys =>
      obtain ⟨hy, -, h3'⟩ := e'
      obtain rfl := Option.some_inj.mp hy
      rw [ih h3 h3']

theorem first_eq (e : Ended next prev p first xs) : first = xs.head? := by
  cases xs with
  | nil => exact e
  | cons x xs => exact e.1

theorem reverse_append (e : Ended next prev p first xs) (e' : Ended prev next first p ys) :
    Ended prev next none (xs.reverse ++ ys).head? (xs.reverse ++ ys) := by
  induction xs generalizing p first ys with
  | nil =>
    obtain rfl : first = none := e
    rw [List.reverse_nil, List.nil_append, ← e'.first_eq]
    exact e'
  | cons x xs ih =>
    obtain ⟨rfl, rfl, h3⟩ := e
    rw [List.reverse_cons, List.append_assoc]
    exact ih h3 ⟨rfl, rfl, e'⟩

/-- The links back are those of the members in reverse. -/
theorem reverse (e : Ended next prev none first xs) : Ended prev next none xs.reverse.head? xs.reverse := by
  have h : Ended prev next none (xs.reverse ++ []).head? (xs.reverse ++ []) := e.reverse_append rfl
  rwa [List.append_nil] at h

/-- Before the last member there is a link. -/
theorem exists_next (e : Ended next prev p first (xs ++ [y])) (hx : x ∈ xs) : ∃ z ∈ xs ++ [y], next x = some z := by
  induction xs generalizing p first with
  | nil => cases hx
  | cons w xs ih =>
    obtain ⟨-, -, h3⟩ := e
    rcases List.mem_cons.mp hx with rfl | hx
    · cases xs with
      | nil => exact ⟨y, by simp, h3.1⟩
      | cons z zs => exact ⟨z, by simp, h3.1⟩
    · obtain ⟨z, hz, h⟩ := ih h3 hx
      exact ⟨z, List.mem_cons_of_mem _ hz, h⟩

theorem next_last (e : Ended next prev p first (xs ++ [y])) : next y = none := by
  induction xs generalizing p first with
  | nil => exact e.2.2
  | cons w xs ih => exact ih e.2.2

/-- The last member but the first has a link back. -/
theorem exists_prev_last (e : Ended next prev p first (x :: (xs ++ [y]))) : ∃ z ∈ x :: xs, prev y = some z := by
  induction xs generalizing p first x with
  | nil => exact ⟨x, by simp, e.2.2.2.1⟩
  | cons w xs ih =>
    obtain ⟨z, hz, h⟩ := ih e.2.2
    exact ⟨z, List.mem_cons_of_mem _ hz, h⟩

variable [DecidableEq α]

/-- A new member before the last. -/
theorem insert (e : Ended next prev p first (a :: (xs ++ [y]))) (hd : (a :: (xs ++ [y])).Nodup)
    (hx : x ∉ a :: (xs ++ [y])) (hb : prev y = some b)
    (hn : ∀ z, next' z = if z = x then some y else if z = b then some x else next z)
    (hp : ∀ z, prev' z = if z = x then some b else if z = y then some x else prev z) :
    Ended next' prev' p first (a :: (xs ++ [x, y])) := by
  induction xs generalizing p first a with
  | nil =>
    obtain ⟨rfl, h2, h3, h4, h5⟩ := e
    obtain rfl := Option.some_inj.mp (h4.symm.trans hb)
    have hax : a ≠ x := by rintro rfl; simp at hx
    have hay : a ≠ y := by rintro rfl; simp at hd
    have hyx : y ≠ x := by rintro rfl; simp at hx
    refine ⟨rfl, by rw [hp, if_neg hax, if_neg hay, h2], by rw [hn, if_neg hax, if_pos rfl], by rw [hp, if_pos rfl],
      by rw [hn, if_pos rfl], by rw [hp, if_neg hyx, if_pos rfl], ?_⟩
    rw [hn, if_neg hyx, if_neg hay.symm]
    exact h5
  | cons c xs ih =>
    obtain ⟨rfl, h2, h3⟩ := e
    obtain ⟨hac, hdc⟩ := List.nodup_cons.mp hd
    obtain ⟨b', hb', hyb⟩ := h3.exists_prev_last
    obtain rfl := Option.some_inj.mp (hyb.symm.trans hb)
    have hax : a ≠ x := by rintro rfl; simp at hx
    have hay : a ≠ y := by rintro rfl; simp at hac
    have hab : a ≠ b' := by
      rintro rfl
      apply hac
      exact List.mem_append_left _ hb'
    refine ⟨rfl, by rw [hp, if_neg hax, if_neg hay, h2], ?_⟩
    rw [hn, if_neg hax, if_neg hab]
    exact ih h3 hdc (fun hc => hx (List.mem_cons_of_mem _ hc))

/-- A new first member. -/
theorem push (e : Ended next prev none first xs) (hx : x ∉ xs) (hd : xs.Nodup)
    (hn : ∀ y, next' y = if y = x then first else next y)
    (hp : ∀ y, prev' y = if y = x then none else if first = some y then some x else prev y) :
    Ended next' prev' none (some x) (x :: xs) := by
  refine ⟨rfl, by rw [hp, if_pos rfl], ?_⟩
  rw [hn, if_pos rfl]
  cases xs with
  | nil => exact e
  | cons y ys =>
    obtain ⟨rfl, h2, h3⟩ := e
    have hyx : y ≠ x := by rintro rfl; simp at hx
    refine ⟨rfl, by rw [hp, if_neg hyx, if_pos rfl], ?_⟩
    rw [hn, if_neg hyx]
    refine h3.congr (fun z hz => ?_) fun z hz => ?_
    · rw [hn, if_neg (by rintro rfl; simp [hz] at hx)]
    · rw [hp, if_neg (by rintro rfl; simp [hz] at hx), if_neg]
      rintro ⟨⟩
      exact (List.nodup_cons.mp hd).1 hz

/-- A member less. -/
theorem remove (e : Ended next prev p first xs) (hx : x ∈ xs) (hd : xs.Nodup) (hpx : ∀ y ∈ xs, p ≠ some y)
    (hn : ∀ y, y ≠ x → next' y = if prev x = some y then next x else next y)
    (hp : ∀ y, y ≠ x → prev' y = if next x = some y then prev x else prev y) :
    Ended next' prev' p (if first = some x then next x else first) (xs.erase x) := by
  induction xs generalizing p first with
  | nil => cases hx
  | cons z xs ih =>
    obtain ⟨rfl, h2, h3⟩ := e
    obtain ⟨hzs, hds⟩ := List.nodup_cons.mp hd
    by_cases hzx : z = x
    · -- the member behind it comes to stand behind `p`
      subst hzx
      rw [if_pos rfl, List.erase_cons_head]
      cases xs with
      | nil => exact h3
      | cons w ws =>
        obtain ⟨h4, h5, h6⟩ := h3
        have hzw : w ≠ z := by rintro rfl; simp at hzs
        refine ⟨h4, by rw [hp w hzw, if_pos h4, h2], ?_⟩
        rw [hn w hzw, if_neg (by rw [h2]; exact hpx w (by simp))]
        refine h6.congr (fun y hy => ?_) fun y hy => ?_
        · rw [hn y (by rintro rfl; simp [hy] at hzs), if_neg (by rw [h2]; exact hpx y (by simp [hy]))]
        · rw [hp y (by rintro rfl; simp [hy] at hzs), if_neg]
          rw [h4]
          rintro ⟨⟩
          exact (List.nodup_cons.mp hds).1 hy
    · have hxs : x ∈ xs := (List.mem_cons.mp hx).resolve_left (Ne.symm hzx)
      rw [if_neg (by simpa using hzx), List.erase_cons_tail (by simpa using hzx)]
      have hnz : next x ≠ some z := fun hc => hzs (h3.next_of_mem hxs hc)
      refine ⟨rfl, by rw [hp z hzx, if_neg hnz, h2], ?_⟩
      have := ih h3 hxs hds fun y hy => by
        simp only [ne_eq, Option.some_inj]
        rintro rfl
        exact hzs hy
      rw [hn z hzx]
      rcases h3.prev_of_mem hxs with ⟨h4, h5⟩ | ⟨w, hw, h5⟩
      · rw [if_pos h4] at this
        rwa [if_pos h5]
      · have hzw : z ≠ w := by rintro rfl; exact hzs hw
        have hne : next z ≠ some x := fun hc => by
          rw [hc] at h3
          rw [h3.prev_first] at h5
          exact hzw (Option.some_inj.mp h5)
        rw [if_neg hne] at this
        rwa [if_neg (by rw [h5]; simpa using hzw.symm)]

end Ended

/-- A list for each index. `listOf` gives the list an object is a member of, if it is of one. -/
def Lists (next prev : α → Option α) (head : ι → Option α) (listOf : α → Option ι) : Prop :=
  ∀ i, ∃ xs, Ended next prev none (head i) xs ∧ xs.Nodup ∧ ∀ x, x ∈ xs ↔ listOf x = some i

namespace Lists

variable {head head' : ι → Option α} {listOf : α → Option ι} {i : ι}

theorem prev_of (L : Lists next prev head listOf) (hx : listOf x = some i) :
    (head i = some x ∧ prev x = none) ∨ (head i ≠ some x ∧ ∃ y, prev x = some y ∧ listOf y = some i) := by
  obtain ⟨xs, e, -, hm⟩ := L i
  rcases e.prev_of_mem ((hm x).mpr hx) with h | ⟨y, hy, h⟩
  · exact .inl h
  · refine .inr ⟨fun hc => ?_, y, h, (hm y).mp hy⟩
    rw [hc] at e
    rw [e.prev_first] at h
    cases h

theorem next_of (L : Lists next prev head listOf) (hx : listOf x = some i) (hy : next x = some y) :
    listOf y = some i := by
  obtain ⟨xs, e, -, hm⟩ := L i
  exact (hm y).mp (e.next_of_mem ((hm x).mpr hx) hy)

theorem head_of (L : Lists next prev head listOf) (hx : head i = some x) : listOf x = some i := by
  obtain ⟨xs, e, -, hm⟩ := L i
  rw [hx] at e
  exact (hm x).mp e.first_mem

theorem congr (L : Lists next prev head listOf) (hn : ∀ x, listOf x ≠ none → next' x = next x)
    (hp : ∀ x, listOf x ≠ none → prev' x = prev x) : Lists next' prev' head listOf := by
  intro i
  obtain ⟨xs, e, hd, hm⟩ := L i
  have hne : ∀ x ∈ xs, listOf x ≠ none := fun x hx => by simp [(hm x).mp hx]
  exact ⟨xs, e.congr (fun x hx => hn x (hne x hx)) (fun x hx => hp x (hne x hx)), hd, hm⟩

variable [DecidableEq α] [DecidableEq ι]

/-- An object that is in no list becomes the first of one. -/
theorem push (L : Lists next prev head listOf) (hx : listOf x = none) (i : ι)
    (hn : ∀ y, next' y = if y = x then head i else next y)
    (hp : ∀ y, prev' y = if y = x then none else if head i = some y then some x else prev y) :
    Lists next' prev' (Function.update head i (some x)) (Function.update listOf x (some i)) := by
  intro j
  obtain ⟨xs, e, hd, hm⟩ := L j
  have hxs : x ∉ xs := by rw [hm, hx]; exact nofun
  by_cases hj : j = i
  · subst hj
    refine ⟨x :: xs, ?_, List.nodup_cons.mpr ⟨hxs, hd⟩, fun z => ?_⟩
    · rw [Function.update_self]
      exact e.push hxs hd hn hp
    · by_cases hz : z = x
      · subst hz; simp
      · simp [hz, hm]
  · refine ⟨xs, ?_, hd, fun z => ?_⟩
    · rw [Function.update_of_ne hj]
      refine e.congr (fun z hz => ?_) fun z hz => ?_
      · rw [hn, if_neg (by rintro rfl; exact hxs hz)]
      · rw [hp, if_neg (by rintro rfl; exact hxs hz), if_neg]
        intro hc
        exact hj (Option.some_inj.mp (((hm z).mp hz).symm.trans (L.head_of hc)))
    · by_cases hz : z = x
      · subst hz
        simp [hxs, Ne.symm hj]
      · rw [Function.update_of_ne hz, hm]

/-- A member leaves its list. -/
theorem remove (L : Lists next prev head listOf) (hx : listOf x = some i)
    (hn : ∀ y, y ≠ x → next' y = if prev x = some y then next x else next y)
    (hp : ∀ y, y ≠ x → prev' y = if next x = some y then prev x else prev y)
    (hh : ∀ j, head' j = if head j = some x then next x else head j) :
    Lists next' prev' head' (Function.update listOf x none) := by
  intro j
  obtain ⟨xs, e, hd, hm⟩ := L j
  by_cases hj : j = i
  · subst hj
    refine ⟨xs.erase x, ?_, hd.erase x, fun z => ?_⟩
    · rw [hh]
      exact e.remove ((hm x).mpr hx) hd nofun hn hp
    · rw [hd.mem_erase_iff, hm]
      by_cases hz : z = x
      · subst hz; simp
      · simp [hz]
  · have hxs : x ∉ xs := by
      rw [hm, hx, Option.some_inj]
      exact Ne.symm hj
    -- a link from or to `x` stays within the list of `x`
    have apart : ∀ z ∈ xs, listOf z ≠ some i := fun z hz hc => by
      rw [(hm z).mp hz, Option.some_inj] at hc
      exact hj hc
    refine ⟨xs, ?_, hd, fun z => ?_⟩
    · rw [hh, if_neg fun hc => hj (Option.some_inj.mp ((L.head_of hc).symm.trans hx))]
      refine e.congr (fun z hz => ?_) fun z hz => ?_
      · rw [hn z (by rintro rfl; exact hxs hz), if_neg]
        intro hc
        rcases L.prev_of hx with ⟨-, h⟩ | ⟨-, y, h, hy⟩
        · rw [h] at hc; cases hc
        · obtain rfl := Option.some_inj.mp (h.symm.trans hc)
          exact apart y hz hy
      · rw [hp z (by rintro rfl; exact hxs hz), if_neg fun hc => apart z hz (L.next_of hx hc)]
    · by_cases hz : z = x
      · subst hz; simp [hxs]
      · rw [Function.update_of_ne hz, hm]

end Lists

end Nio
