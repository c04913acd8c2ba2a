import Mathlib.Data.Int.CardIntervalMod
import Mathlib.Data.List.Perm.Basic
import NioSocket.Net.Accepting

/-!
# Servers

What the acceptors of a server come to in a run. One that listens has an accept under way (`accepts_of_run`), one whose
addresses are refused never has one again (`mute_iff`), and the connections are shared out evenly among the reactors
(`turns_of_run`).
-/

namespace Nio.Net

/-! ## A server -/

namespace ServerBootstrap

open ConnectionAcceptor (left Sound Rebinds Handles)

variable {ε : Type} {s s' t : ServerBootstrap} {e : ServerEvent ε} {i : Nat}

/-- The acceptor that `bind` makes, when it binds its addresses. -/
def made (s : ServerBootstrap) (hosts : List String) (port : String) : ConnectionAcceptor :=
  { ConnectionAcceptor.new s.type_ with hosts_ := hosts, port_ := port }

/-- What a step of the server does. -/
inductive Steps (s : ServerBootstrap) : ServerEvent ε → ServerBootstrap → Prop
  | connection (type : ServerConnectionType) : Steps s (.connection type) { s with type_ := type }
  | bind {hosts : List String} {port : String} {net : Network ε} {r : Nat} {g : NioEventReactorGroup} {u : Accepting}
      (hg : s.group_.next = .ok r g) (hb : Rebinds net ⟨s.made hosts port, s.childGroup_, s.turns, s.connections⟩ u) :
      Steps s (.bind hosts port net) { s with
        group_ := g, childGroup_ := u.childGroup_, turns := u.turns, acceptors := s.acceptors ++ [u.acceptor],
        connections := u.connections }
  | bindHost {host port : String} {net : Network ε} {r : Nat} {g : NioEventReactorGroup} {u : Accepting}
      (hg : s.group_.next = .ok r g) (hb : Rebinds net ⟨s.made [host] port, s.childGroup_, s.turns, s.connections⟩ u) :
      Steps s (.bindHost host port net) { s with
        group_ := g, childGroup_ := u.childGroup_, turns := u.turns, acceptors := s.acceptors ++ [u.acceptor],
        connections := u.connections }
  | ready {i k : Nat} {result : Option AcceptError} {a : ConnectionAcceptor} {x : Accept}
      (ha : s.acceptors[i]? = some a) (hx : a.accepts[k]? = some x) (hr : x.result = none) :
      Steps s (.ready i k result) { s with
        acceptors := s.acceptors.set i { a with accepts := a.accepts.set k { x with result := some result } } }
  | handle {i k : Nat} {net : Network ε} {a : ConnectionAcceptor} {x : Accept} {error : Option AcceptError}
      {u : Accepting} (ha : s.acceptors[i]? = some a) (hx : a.accepts[k]? = some x) (hr : x.result = some error)
      (hh : Handles net x.childReactor
        ⟨{ a with accepts := a.accepts.eraseIdx k }, s.childGroup_, s.turns, s.connections⟩ error u) :
      Steps s (.handle i k net) { s with
        childGroup_ := u.childGroup_, turns := u.turns, acceptors := s.acceptors.set i u.acceptor,
        connections := u.connections }

/-- A binding of the acceptor that `init` makes. -/
theorem of_bind (net : Network ε) (hosts : List String) (port : String) {binds : Method Accepting Unit}
    (hb : binds ⟨.new s.type_, s.childGroup_, s.turns, s.connections⟩ =
      ConnectionAcceptor.doBind net ⟨s.made hosts port, s.childGroup_, s.turns, s.connections⟩)
    (h : left (bind binds s) = some t) : ∃ r g u, s.group_.next = .ok r g ∧
      Rebinds net ⟨s.made hosts port, s.childGroup_, s.turns, s.connections⟩ u ∧ t = { s with
        group_ := g, childGroup_ := u.childGroup_, turns := u.turns, acceptors := s.acceptors ++ [u.acceptor],
        connections := u.connections } := by
  rw [bind, Method.bind_apply, init] at h
  cases hg : s.group_.next with
  | ok r g =>
    rw [hg, Outcome.bind_ok, onAcceptor] at h
    simp only [List.getElem?_concat_length, List.set_append_right _ _ (Nat.le_refl _), Nat.sub_self, List.set_cons_zero,
      Method.bind_apply, hb] at h
    have hr (u : Accepting) (hu : left ((do ConnectionAcceptor.doBind net; ConnectionAcceptor.startAccept :
        Method Accepting Unit) ⟨s.made hosts port, s.childGroup_, s.turns, s.connections⟩) = some u) :=
      ConnectionAcceptor.rebinds hu
    rw [Method.bind_apply] at hr
    generalize (ConnectionAcceptor.doBind net ⟨s.made hosts port, s.childGroup_, s.turns, s.connections⟩).bind
      (fun _ => ConnectionAcceptor.startAccept) = o at h hr
    cases o with
    | ok _ u | throw _ u =>
      cases h
      exact ⟨r, g, u, rfl, hr u rfl, rfl⟩
    | ub | hang => cases h
  | throw what g =>
    rw [hg] at h
    rw [NioEventReactorGroup.next] at hg
    split at hg <;> cases hg
  | ub | hang =>
    rw [hg] at h
    cases h

theorem Step.steps (h : Step s e t) : Steps s e t := by
  cases e with
  | connection type =>
    cases h
    exact .connection type
  | bind hosts port net =>
    obtain ⟨r, g, u, hg, hb, rfl⟩ := of_bind net hosts port rfl h
    exact .bind hg hb
  | bindHost host port net =>
    obtain ⟨r, g, u, hg, hb, rfl⟩ := of_bind net [host] port rfl h
    exact .bindHost hg hb
  | ready i k result =>
    obtain ⟨a, ha, h⟩ := Option.bind_eq_some_iff.mp h
    obtain ⟨x, hx, h⟩ := Option.bind_eq_some_iff.mp h
    cases hr : x.result with
    | none =>
      rw [hr] at h
      cases h
      exact .ready ha hx hr
    | some error =>
      rw [hr] at h
      cases h
  | handle i k net =>
    obtain ⟨a, ha, h⟩ := Option.bind_eq_some_iff.mp h
    obtain ⟨x, hx, h⟩ := Option.bind_eq_some_iff.mp h
    obtain ⟨error, hr, h⟩ := Option.bind_eq_some_iff.mp h
    obtain ⟨u, hu, h⟩ := Option.bind_eq_some_iff.mp h
    cases h
    exact .handle ha hx hr (ConnectionAcceptor.handles hu)

/-- Nothing is under way at acceptor `i`. -/
def Mute (s : ServerBootstrap) (i : Nat) : Prop := ∃ a, s.acceptors[i]? = some a ∧ a.accepts = []

/-- The acceptor gets no socket: its addresses are refused, or there are none. -/
def Unbound (net : Network ε) (a : ConnectionAcceptor) : Prop := a.Refused net ∨ a.listened net = []

/-- The event leaves acceptor `i` without an accept: it is made and gets no socket, or its accept has failed and it
is refused when it binds its addresses again. -/
def Silences (s : ServerBootstrap) (i : Nat) : ServerEvent ε → Prop
  | .bind hosts port net => i = s.acceptors.length ∧ Unbound net (s.made hosts port)
  | .bindHost host port net => i = s.acceptors.length ∧ Unbound net (s.made [host] port)
  | .handle j _ net => j = i ∧ ∃ a r e, s.acceptors[i]? = some a ∧ a.accepts = [⟨r, some (some e)⟩] ∧
      e.doesNeedRetry = false ∧ a.Refused net
  | _ => False

/-- Every acceptor of the server is sound. -/
def AllSound (s : ServerBootstrap) : Prop := ∀ (i : Nat) (a : ConnectionAcceptor), s.acceptors[i]? = some a → a.Sound

theorem getElem?_concat_of_ne {l : List ConnectionAcceptor} {b : ConnectionAcceptor} {j : Nat} (hj : j ≠ l.length) :
    (l ++ [b])[j]? = l[j]? := by
  rcases Nat.lt_or_gt_of_ne hj with hj | hj
  · exact List.getElem?_append_left hj
  · rw [List.getElem?_eq_none (by simp; omega), List.getElem?_eq_none (by omega)]

/-- What an event comes to that is about acceptor `i`. -/
structure Touches (s : ServerBootstrap) (e : ServerEvent ε) (t : ServerBootstrap) (i : Nat) : Prop where
  others : ∀ j, j ≠ i → t.acceptors[j]? = s.acceptors[j]?
  sound : ∀ a, t.acceptors[i]? = some a → a.Sound
  mute : t.Mute i ↔ s.Silences i e
  /-- No event is about an acceptor that is mute. -/
  busy : ¬s.Mute i
  silences : ∀ j, s.Silences j e → j = i

theorem touches_made {net : Network ε} {a : ConnectionAcceptor} {u : Accepting} (ha : a.accepts = [])
    (hn : a.acceptor_ = none) (hb : Rebinds net ⟨a, s.childGroup_, s.turns, s.connections⟩ u)
    (ht : t.acceptors = s.acceptors ++ [u.acceptor])
    (he : ∀ j, s.Silences j e ↔ j = s.acceptors.length ∧ Unbound net a) : Touches s e t s.acceptors.length := by
  obtain ⟨hS, hm⟩ := hb.sound ha (by simp [hn])
  have hlast : t.acceptors[s.acceptors.length]? = some u.acceptor := by rw [ht, List.getElem?_concat_length]
  refine ⟨fun j hj => ?_, fun c hc => ?_, ?_, ?_, fun j hj => ((he j).mp hj).1⟩
  · rw [ht]
    exact getElem?_concat_of_ne hj
  · obtain rfl := Option.some.inj (hlast.symm.trans hc)
    exact hS
  · rw [he]
    constructor
    · rintro ⟨c, hc, hnil⟩
      obtain rfl := Option.some.inj (hlast.symm.trans hc)
      exact ⟨rfl, (hm.mp hnil).imp_right And.left⟩
    · rintro ⟨-, hu⟩
      exact ⟨_, hlast, hm.mpr (hu.imp_right fun hl => ⟨hl, hn⟩)⟩
  · rintro ⟨c, hc, -⟩
    rw [List.getElem?_eq_none (Nat.le_refl _)] at hc
    cases hc

theorem touches_set {a b : ConnectionAcceptor} (ha : s.acceptors[i]? = some a) (hne : a.accepts ≠ []) (hS : b.Sound)
    (ht : t.acceptors = s.acceptors.set i b) (hm : b.accepts = [] ↔ s.Silences i e)
    (he : ∀ j, s.Silences j e → j = i) : Touches s e t i := by
  have hi : t.acceptors[i]? = some b := by rw [ht, List.getElem?_set_self (List.getElem?_eq_some_iff.mp ha).1]
  refine ⟨fun j hj => ?_, fun c hc => ?_, Iff.trans ⟨?_, fun hb => ⟨b, hi, hb⟩⟩ hm, ?_, he⟩
  · rw [ht, List.getElem?_set_ne (Ne.symm hj)]
  · obtain rfl := Option.some.inj (hi.symm.trans hc)
    exact hS
  · rintro ⟨c, hc, hnil⟩
    obtain rfl := Option.some.inj (hi.symm.trans hc)
    exact hnil
  · rintro ⟨c, hc, hnil⟩
    obtain rfl := Option.some.inj (ha.symm.trans hc)
    exact hne hnil

theorem Steps.touches (h : Steps s e t) (hs : s.AllSound) :
    (t.acceptors = s.acceptors ∧ ∀ j, ¬s.Silences j e) ∨ ∃ i, Touches s e t i := by
  cases h with
  | connection type => exact .inl ⟨rfl, fun _ h => h⟩
  | bind hg hb => exact .inr ⟨_, touches_made rfl rfl hb rfl fun _ => Iff.rfl⟩
  | bindHost hg hb => exact .inr ⟨_, touches_made rfl rfl hb rfl fun _ => Iff.rfl⟩
  | @ready i k result a x ha hx hr =>
    have hS := hs i a ha
    obtain ⟨rfl, hx, hb⟩ := hS.accepts_eq hx
    have hne : a.accepts ≠ [] := by simp [hx]
    have hset : a.accepts.set 0 { x with result := some result } = [{ x with result := some result }] := by
      rw [hx, List.set_cons_zero]
    refine .inr ⟨i, touches_set ha hne ⟨fun _ => ⟨_, hset⟩, fun hc => ?_, fun hn => ?_⟩ rfl ?_ fun _ h => h.elim⟩
    · -- on a socket that is closed the accept has its result
      obtain ⟨r, hy⟩ := (hS.closed hc).resolve_left hne
      rw [hx] at hy
      cases hy
      cases hr
    · exact absurd (hS.unbound hn) hne
    · exact iff_of_false (by simp [hset]) fun h => h
  | @handle i k net a x error u ha hx hr hh =>
    have hS := hs i a ha
    obtain ⟨rfl, hx, hb⟩ := hS.accepts_eq hx
    obtain ⟨hU, hm⟩ := hh.sound (by simp [hx]) hb
    refine .inr ⟨i, touches_set ha (by simp [hx]) hU rfl (hm.trans ?_) fun _ h => h.1.symm⟩
    obtain ⟨r, result⟩ := x
    obtain rfl : result = some error := hr
    constructor
    · rintro ⟨⟨e, rfl, he⟩, hR⟩
      exact ⟨rfl, a, r, e, ha, hx, he, hR⟩
    · rintro ⟨-, c, r', e, hc, hx', he, hR⟩
      obtain rfl := Option.some.inj (ha.symm.trans hc)
      rw [hx] at hx'
      cases hx'
      exact ⟨⟨e, rfl, he⟩, hR⟩

theorem Step.allSound (h : Step s e t) (hs : s.AllSound) : t.AllSound := by
  intro j a ha
  rcases h.steps.touches hs with ⟨ht, -⟩ | ⟨i, T⟩
  · exact hs j a (ht ▸ ha)
  · by_cases hj : j = i
    · subst hj
      exact T.sound a ha
    · exact hs j a (T.others j hj ▸ ha)

theorem Step.mute (h : Step s e t) (hs : s.AllSound) (i : Nat) : t.Mute i ↔ s.Mute i ∨ s.Silences i e := by
  rcases h.steps.touches hs with ⟨ht, he⟩ | ⟨j, T⟩
  · rw [Mute, ht]
    exact ⟨.inl, fun h => h.resolve_right (he i)⟩
  · by_cases hj : i = j
    · subst hj
      exact T.mute.trans ⟨.inr, fun h => h.resolve_left T.busy⟩
    · rw [Mute, T.others i hj]
      exact ⟨.inl, fun h => h.resolve_right fun hS => hj (T.silences i hS)⟩

/-- No event is about an acceptor that is mute. -/
theorem Step.of_mute (h : Step s e t) (hs : s.AllSound) (hm : s.Mute i) : t.acceptors[i]? = s.acceptors[i]? := by
  rcases h.steps.touches hs with ⟨ht, -⟩ | ⟨j, T⟩
  · rw [ht]
  · exact T.others i fun hj => T.busy (hj ▸ hm)

theorem new_allSound (m n : Int) : (new m n).AllSound := fun i a ha => by simp [new] at ha

theorem run_allSound {m n : Int} {es : List (ServerEvent ε)} (h : Run Step (new m n) es s) : s.AllSound :=
  h.inv (P := AllSound) (new_allSound m n) fun _ _ _ hs st => st.allSound hs

/-- Whatever programs bind and whatever the sockets do, an acceptor that listens has one accept under way, which a
connection can come to; and one that has none under way stays as it is. -/
theorem accepts_of_run {m n : Int} {es : List (ServerEvent ε)} (h : Run Step (new m n) es s) :
    (∀ i a, s.acceptors[i]? = some a → a.Sound ∧
      (∀ k x, a.accepts[k]? = some x → x.result = none → ∀ result, ∃ t, Step s (.ready (ε := ε) i k result) t)) ∧
    ∀ i, s.Mute i → ∀ (es' : List (ServerEvent ε)) (t : ServerBootstrap), Run Step s es' t →
      t.acceptors[i]? = s.acceptors[i]? := by
  have hs := run_allSound h
  refine ⟨fun i a ha => ⟨hs i a ha, fun k x hx hr result => ?_⟩, fun i hm es' t hr => ?_⟩
  · apply Option.isSome_iff_exists.mp
    simp [next, ready, ha, hx, hr]
  · have hk : t.AllSound ∧ t.Mute i ∧ t.acceptors[i]? = s.acceptors[i]? := by
      refine hr.inv (P := fun t => t.AllSound ∧ t.Mute i ∧ t.acceptors[i]? = s.acceptors[i]?) ⟨hs, hm, rfl⟩ ?_
      rintro t e u ⟨ht, hmt, he⟩ st
      exact ⟨st.allSound ht, (st.mute ht i).mpr (.inl hmt), (st.of_mute ht hmt).trans he⟩
    exact hk.2.2

/-- A network where a host has one address, on which a socket can listen. -/
def listens : Network Nat := ⟨fun _ _ => some [0], fun _ => none⟩

/-- One whose address is in use. -/
def inUse : Network Nat := ⟨fun _ _ => some [0], fun _ => some "bind: Address already in use"⟩

theorem exists_run {P : ServerBootstrap → Prop} [DecidablePred P] (es : List (ServerEvent ε))
    (h : ((es.foldlM next s).any fun s => P s) = true) : ∃ s', Run Step s es s' ∧ P s' :=
  Run.exists_of_next (fun _ _ _ h => h) es h

/-- Behind a connection the next one can come. -/
theorem accepts_of_run_connection : ∃ s : ServerBootstrap,
    Run Step (new 1 2) [.connection .COMM_NET_SERVER_TCP, .bind ["localhost"] "80" listens, .ready 0 0 none,
      .handle 0 0 listens] s ∧ s.connections = [0] ∧ ∃ t, Step s (.ready (ε := Nat) 0 0 none) t := by
  obtain ⟨s, h, hs⟩ := exists_run
    (P := fun s => s.connections = [0] ∧ s.acceptors.map (·.accepts) = [[⟨1, none⟩]]) (s := new 1 2)
    [.connection .COMM_NET_SERVER_TCP, .bind ["localhost"] "80" listens, .ready 0 0 none, .handle 0 0 listens]
    (by decide +kernel)
  obtain ⟨a, ha, hx⟩ := List.map_eq_singleton_iff.mp hs.2
  have h0 : s.acceptors[0]? = some a := by rw [ha, List.getElem?_cons_zero]
  exact ⟨s, h, hs.1, ((accepts_of_run h).1 0 a h0).2 0 ⟨1, none⟩ (by rw [hx, List.getElem?_cons_zero]) rfl none⟩

/-- An acceptor accepts no more if and only if at some time its addresses were refused, or when it was made there were
none: whatever else its sockets report, it goes on. -/
theorem mute_iff {m n : Int} {es : List (ServerEvent ε)} (h : Run Step (new m n) es t) (i : Nat) :
    t.Mute i ↔ ∃ es₁ e es₂ s, es = es₁ ++ e :: es₂ ∧ Run Step (new m n) es₁ s ∧ s.Silences i e := by
  induction h with
  | nil =>
    constructor
    · rintro ⟨a, ha, -⟩
      simp [new] at ha
    · rintro ⟨es₁, e, es₂, s, he, -⟩
      simp at he
  | @snoc es e s t hr st ih =>
    rw [st.mute (run_allSound hr) i, ih]
    constructor
    · rintro (⟨es₁, e₁, es₂, s₁, rfl, hr₁, hS⟩ | hS)
      · exact ⟨es₁, e₁, es₂ ++ [e], s₁, by simp, hr₁, hS⟩
      · exact ⟨es, e, [], s, rfl, hr, hS⟩
    · rintro ⟨es₁, e₁, es₂, s₁, he, hr₁, hS⟩
      rcases List.eq_nil_or_concat es₂ with rfl | ⟨es₂, e₂, rfl⟩
      · obtain ⟨rfl, he₁⟩ := List.append_inj' he rfl
        obtain rfl := List.head_eq_of_cons_eq he₁
        have hu := hr.unique (fun _ _ _ _ h h' => Option.some.inj (h.symm.trans h')) hr₁
        exact .inr (hu ▸ hS)
      · rw [List.concat_eq_append, ← List.cons_append, ← List.append_assoc] at he
        obtain ⟨rfl, -⟩ := List.append_inj' he rfl
        exact .inl ⟨es₁, e₁, es₂, s₁, rfl, hr₁, hS⟩

/-- The accept fails, and the address is in use when the acceptor binds again. -/
theorem mute_iff_inUse : ∃ t : ServerBootstrap, t.Mute 0 ∧ ∃ es₁ e es₂ s,
    [.connection .COMM_NET_SERVER_TCP, .bind ["localhost"] "80" listens, .ready 0 0 (some (.other 24)),
      .handle 0 0 inUse] = es₁ ++ e :: es₂ ∧ Run Step (new 1 2) es₁ s ∧ s.Silences 0 e := by
  obtain ⟨t, h, ht⟩ := exists_run (P := fun t => t.acceptors.map (·.accepts) = [[]]) (s := new 1 2)
    [.connection .COMM_NET_SERVER_TCP, .bind ["localhost"] "80" listens, .ready 0 0 (some (.other 24)),
      .handle 0 0 inUse] (by decide +kernel)
  obtain ⟨a, ha, hx⟩ := List.map_eq_singleton_iff.mp ht
  have hm : t.Mute 0 := ⟨a, by rw [ha, List.getElem?_cons_zero], hx⟩
  exact ⟨t, hm, (mute_iff h 0).mp hm⟩

end ServerBootstrap

/-! ## The reactors of the connections -/

open NioEventReactorGroup (after Taken next_after)

variable {ε : Type} {net : Network ε} {n : Int} {l : List Nat} {g g' : NioEventReactorGroup} {r : Nat}

/-- The reactors of a list are those of turns that the group has given, each to one. -/
structure Turns (n : Int) (k : Nat) (turns l : List Nat) (g : NioEventReactorGroup) : Prop where
  group : g = after n k
  taken : Taken n k
  nodup : turns.Nodup
  lt : ∀ j ∈ turns, j < k
  reactors : l.Perm (turns.map (· % n.toNat))

/-- So many turns give a reactor one connection more than its share at most. -/
theorem Turns.count_le {k : Nat} {turns : List Nat} (T : Turns n k turns l g) (h1 : 1 ≤ n) (r : Nat) :
    l.count r ≤ k / n.toNat + 1 := by
  have h0 : 0 < n.toNat := by omega
  have hsub : turns.Subperm (List.range k) :=
    List.subperm_of_subset T.nodup fun j hj => List.mem_range.mpr (T.lt j hj)
  calc l.count r
    _ = (turns.map (· % n.toNat)).count r := T.reactors.count_eq r
    _ = turns.countP (fun j => j % n.toNat = r) := by
      rw [List.count, List.countP_map]
      rfl
    _ ≤ (List.range k).countP (fun j => j % n.toNat = r) := hsub.countP_le _
    _ ≤ (List.range k).countP (fun j => j ≡ r [MOD n.toNat]) := by
      apply List.countP_mono_left
      intro j _ hj
      rw [decide_eq_true_eq] at hj ⊢
      rw [Nat.ModEq, ← hj, Nat.mod_mod]
    _ = k / n.toNat + if r % n.toNat < k % n.toNat then 1 else 0 := Nat.count_modEq_card k h0 r
    _ ≤ k / n.toNat + 1 := by
      split
      · exact Nat.le_refl _
      · exact Nat.le_succ _

/-- The reactors of a list are those of some of the first `k` turns. -/
def HasTurns (n : Int) (k : Nat) (l : List Nat) (g : NioEventReactorGroup) : Prop := ∃ turns, Turns n k turns l g

namespace HasTurns

variable {k : Nat}

theorem perm {l' : List Nat} (h : HasTurns n k l g) (hp : l'.Perm l) : HasTurns n k l' g := by
  obtain ⟨turns, T⟩ := h
  exact ⟨turns, { T with reactors := hp.trans T.reactors }⟩

theorem tail (h : HasTurns n k (r :: l) g) : HasTurns n k l g := by
  obtain ⟨turns, T⟩ := h
  obtain ⟨j, hj, rfl⟩ := List.mem_map.mp (T.reactors.subset List.mem_cons_self)
  refine ⟨turns.erase j, T.group, T.taken, T.nodup.erase j, fun i hi => T.lt i (List.mem_of_mem_erase hi), ?_⟩
  have hp := T.reactors.trans ((List.perm_cons_erase hj).map (· % n.toNat))
  exact (List.perm_cons _).mp hp

theorem next (h1 : 1 ≤ n) (hn : n ≤ intMax) (h : HasTurns n k l g) (hg : g.next = .ok r g') :
    HasTurns n (k + 1) (r :: l) g' := by
  obtain ⟨turns, T⟩ := h
  obtain ⟨hr, hg', ht⟩ := next_after h1 hn T.taken (T.group ▸ hg)
  refine ⟨k :: turns, hg', ht, List.nodup_cons.mpr ⟨fun hk => (T.lt k hk).false, T.nodup⟩, fun j hj => ?_, ?_⟩
  · rcases List.mem_cons.mp hj with rfl | hj
    · exact Nat.lt_succ_self _
    · exact Nat.lt_succ_of_lt (T.lt j hj)
  · rw [hr, List.map_cons]
    exact T.reactors.cons _

end HasTurns

/-- The reactors of the accepts that are under way. -/
def ConnectionAcceptor.reactors (a : ConnectionAcceptor) : List Nat := a.accepts.map (·.childReactor)

theorem Accept.abort_childReactor (a : Accept) : a.abort.childReactor = a.childReactor := by
  unfold abort
  split <;> rfl

/-- The reactors of the connections, and of the accepts of an acceptor and of others. -/
def Accepting.reactors (s : Accepting) (others : List Nat) : List Nat := s.connections ++ (s.acceptor.reactors ++ others)

namespace ConnectionAcceptor

variable {s t : Accepting}

theorem Starts.turns (h1 : 1 ≤ n) (hn : n ≤ intMax) (h : Starts s t)
    (hs : HasTurns n s.turns (s.reactors l) s.childGroup_) :
    HasTurns n t.turns (t.reactors l) t.childGroup_ := by
  cases h with
  | unbound => exact hs
  | accept _ hg =>
    apply (hs.next h1 hn hg).perm
    simp only [Accepting.reactors, reactors, List.map_append, List.map_cons, List.map_nil, List.append_assoc,
      List.singleton_append]
    rw [← List.append_assoc, ← List.append_assoc]
    exact List.perm_middle

theorem Rebinds.turns (h1 : 1 ≤ n) (hn : n ≤ intMax) (h : Rebinds net s t)
    (hs : HasTurns n s.turns (s.reactors l) s.childGroup_) : HasTurns n t.turns (t.reactors l) t.childGroup_ := by
  cases h with
  | refused => exact hs
  | unresolved _ st => exact st.turns h1 hn hs
  | bound _ _ st =>
    apply st.turns h1 hn
    simpa [Accepting.reactors, reactors, Function.comp_def, Accept.abort_childReactor] using hs

theorem Handles.turns (h1 : 1 ≤ n) (hn : n ≤ intMax) {error : Option AcceptError} (h : Handles net r s error t)
    (hs : HasTurns n s.turns (r :: s.reactors l) s.childGroup_) : HasTurns n t.turns (t.reactors l) t.childGroup_ := by
  cases h with
  | connection st =>
    apply st.turns h1 hn
    apply hs.perm
    rw [Accepting.reactors, List.append_assoc]
    exact List.perm_middle
  | retry _ st => exact st.turns h1 hn hs.tail
  | rebind _ _ st =>
    apply st.turns h1 hn
    simpa [Accepting.reactors, reactors, Function.comp_def, Accept.abort_childReactor] using hs.tail

end ConnectionAcceptor

namespace ServerBootstrap

open ConnectionAcceptor (reactors Rebinds)

variable {s t : ServerBootstrap} {e : ServerEvent ε} {i : Nat}

/-- The reactors of the connections, and of the accepts that are under way. -/
def served (s : ServerBootstrap) : List Nat := s.connections ++ s.acceptors.flatMap reactors

theorem perm_eraseIdx {l : List ConnectionAcceptor} {a : ConnectionAcceptor} (ha : l[i]? = some a) :
    (l.flatMap reactors).Perm (reactors a ++ (l.eraseIdx i).flatMap reactors) := by
  obtain ⟨hi, rfl⟩ := List.getElem?_eq_some_iff.mp ha
  exact (List.getElem_cons_eraseIdx_perm hi).symm.flatMap_right reactors

theorem set_perm_eraseIdx {l : List ConnectionAcceptor} {a : ConnectionAcceptor} (b : ConnectionAcceptor)
    (ha : l[i]? = some a) : ((l.set i b).flatMap reactors).Perm (reactors b ++ (l.eraseIdx i).flatMap reactors) :=
  (List.set_perm_cons_eraseIdx (List.getElem?_eq_some_iff.mp ha).1 b).flatMap_right reactors

theorem Steps.turns (h1 : 1 ≤ n) (hn : n ≤ intMax) (h : Steps s e t) (hS : s.AllSound)
    (hs : HasTurns n s.turns s.served s.childGroup_) : HasTurns n t.turns t.served t.childGroup_ := by
  have hmade (net : Network ε) (a : ConnectionAcceptor) (u : Accepting) (ha : a.accepts = [])
      (hb : Rebinds net ⟨a, s.childGroup_, s.turns, s.connections⟩ u) :
      HasTurns n u.turns (u.connections ++ (s.acceptors ++ [u.acceptor]).flatMap reactors) u.childGroup_ := by
    have hr := hb.turns (l := s.acceptors.flatMap reactors) h1 hn
      (by simpa [served, Accepting.reactors, reactors, ha] using hs)
    apply hr.perm
    rw [List.flatMap_append, List.flatMap_singleton]
    exact List.perm_append_comm.append_left _
  cases h with
  | connection => exact hs
  | bind _ hb => exact hmade _ _ _ rfl hb
  | bindHost _ hb => exact hmade _ _ _ rfl hb
  | @ready i k result a x ha hx hr =>
    obtain ⟨rfl, hx, -⟩ := (hS i a ha).accepts_eq hx
    apply hs.perm
    refine ((set_perm_eraseIdx _ ha).trans ?_).append_left _
    refine List.Perm.trans ?_ (perm_eraseIdx ha).symm
    rw [reactors, reactors, hx, List.set_cons_zero]
    rfl
  | @handle i k net a x error u ha hx hr hh =>
    obtain ⟨rfl, hx, -⟩ := (hS i a ha).accepts_eq hx
    have hu := hh.turns (l := (s.acceptors.eraseIdx i).flatMap reactors) h1 hn ?_
    · exact hu.perm ((set_perm_eraseIdx _ ha).append_left _)
    · apply hs.perm
      refine List.Perm.trans ?_ ((perm_eraseIdx ha).append_left _).symm
      rw [Accepting.reactors, reactors, reactors, hx]
      exact List.perm_middle.symm

/-- The reactors of the connections of a server, and of the accepts that are under way, are those of different turns
of the group, whatever acceptors take them: no reactor has more than one connection more than its share of the turns. -/
theorem turns_of_run {m : Int} {es : List (ServerEvent ε)} (h1 : 1 ≤ n) (hn : n ≤ intMax)
    (h : Run Step (new m n) es s) :
    (∃ turns, Turns n s.turns turns s.served s.childGroup_) ∧ ∀ r, s.served.count r ≤ s.turns / n.toNat + 1 := by
  have hk : s.AllSound ∧ HasTurns n s.turns s.served s.childGroup_ := by
    refine h.inv (P := fun s => s.AllSound ∧ HasTurns n s.turns s.served s.childGroup_)
      ⟨new_allSound m n, [], rfl, .inr (Nat.zero_le _), List.nodup_nil, fun j hj => ?_, .nil⟩ ?_
    · cases hj
    · rintro s e t ⟨hS, hs⟩ st
      exact ⟨st.allSound hS, st.steps.turns h1 hn hS hs⟩
  obtain ⟨-, turns, T⟩ := hk
  exact ⟨⟨turns, T⟩, T.count_le h1⟩

/-- Two acceptors take turns in one group, and the accept of one is interrupted. -/
def interrupted : List (ServerEvent Nat) :=
  [.connection .COMM_NET_SERVER_TCP, .bind ["localhost"] "80" listens, .bind ["localhost"] "81" listens,
    .ready 1 0 (some .interrupted), .handle 1 0 listens, .ready 0 0 none, .handle 0 0 listens]

theorem turns_of_run_interrupted : ∃ s : ServerBootstrap, Run Step (new 1 2) interrupted s ∧
    s.turns = 4 ∧ s.served = [0, 1, 0] ∧
    (∃ turns, Turns 2 s.turns turns s.served s.childGroup_) ∧ ∀ r, s.served.count r ≤ s.turns / 2 + 1 := by
  obtain ⟨s, h, hs⟩ := exists_run (P := fun s => s.turns = 4 ∧ s.served = [0, 1, 0]) (s := new 1 2) interrupted
    (by decide +kernel)
  exact ⟨s, h, hs.1, hs.2, turns_of_run (by decide) (by decide) h⟩

end ServerBootstrap

end Nio.Net
