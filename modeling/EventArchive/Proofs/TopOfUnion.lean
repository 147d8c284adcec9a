import EventArchive.Proofs.Transactions
import EventArchive.Proofs.Versions
import EventArchive.Relay.Basic

/-! # What a relay gathers

The answers of the sources of a relay overlap.  A relay drops what it has seen, then
sorts, then cuts.  As events of one identifier are one event, what is left before the
cut has the events of all answers in the order of delivery (`Event.Sorts`).  A list in
that order is known by its members, so it does not matter in which order the sources
were asked (`Gather.run_perm`).  Nor does it matter that the sources have cut their answers
before: an event that is among the first of the union is among the first of every source
that holds it (`Gather.IsTop.of_cut`).

What a limit keeps (`Gather.Keeps`), which events the sources have answered
(`Gather.Among`) and how they were asked (`Relay.Answers`) are said without the functions
of the relay, which are then shown to do just that (`Gather.keeps_cut`,
`Gather.mem_answered`, `Relay.answers_iff`).
-/
namespace EventArchive

/-! ### The order of events -/

namespace Event
variable {a b : Event} {L L' es : List Event} {P P' : Event → Prop}

/-- One event is to be handed out before another one: it is newer, or of the same time and of a
smaller identifier. -/
def Precedes (a b : Event) : Prop :=
  b.createdAt < a.createdAt ∨
    a.createdAt = b.createdAt ∧ compare a.id.bytes b.id.bytes = .lt

instance (a b : Event) : Decidable (a.Precedes b) :=
  inferInstanceAs (Decidable (_ ∨ _))

theorem precedes_iff : a.Precedes b ↔ b.isOlderThan a = true := by
  have hflip : compare a.id.bytes b.id.bytes = .lt ↔ compare b.id.bytes a.id.bytes = .gt :=
    Std.OrientedCmp.gt_iff_lt.symm
  rw [isOlderThan, isOlder_iff, ← hflip, eq_comm (a := b.createdAt)]
  exact Iff.rfl

instance : Std.Irrefl Precedes := ⟨fun a h => not_isOlderThan_self a (precedes_iff.mp h)⟩

instance : Std.Antisymm Precedes where
  antisymm _ _ hab hba := absurd (isOlderThan_trans (precedes_iff.mp hab) (precedes_iff.mp hba))
    (not_isOlderThan_self _)

/-- What may stand before another event is what is not older. -/
theorem standsBefore_eq (a b : Event) : a.standsBefore b = !a.isOlderThan b := by
  have hle : (compare a.id b.id).isLE = !(compare a.id b.id == .gt) := by
    cases compare a.id b.id <;> rfl
  rw [standsBefore, isOlderThan, isOlder, hle]
  by_cases heq : a.createdAt = b.createdAt
  · simp [heq]
  · by_cases hlt : a.createdAt < b.createdAt
    · simp [hlt, heq, Int64.lt_asymm hlt]
    · have hgt : b.createdAt < a.createdAt :=
        Int64.lt_of_le_of_ne (Int64.not_lt.mp hlt) (Ne.symm heq)
      simp [hgt, hlt, heq]

/-- A list has the events of which something holds, each once, **in the order of delivery**. -/
structure Sorts (L : List Event) (P : Event → Prop) : Prop where
  ordered : L.Pairwise Precedes
  mem_iff : ∀ e, e ∈ L ↔ P e

/-- In the order of delivery there is one list of some events. -/
theorem Sorts.unique (hL : Sorts L P) (hL' : Sorts L' P) : L = L' :=
  hL.ordered.eq_of_mem_iff hL'.ordered fun e => (hL.mem_iff e).trans (hL'.mem_iff e).symm

theorem Sorts.congr (hL : Sorts L P) (hiff : ∀ e, P e ↔ P' e) : Sorts L P' :=
  ⟨hL.ordered, fun e => (hL.mem_iff e).trans (hiff e)⟩

/-- The list of some of the events is a part of the list of all. -/
theorem Sorts.eq_filter (hL : Sorts L P) (hL' : Sorts L' P') (hsub : ∀ e, P e → P' e) :
    L = L'.filter (· ∈ L) := by
  refine hL.ordered.eq_of_mem_iff (hL'.ordered.filter _) fun e => ?_
  rw [List.mem_filter, decide_eq_true_eq]
  exact ⟨fun he => ⟨(hL'.mem_iff e).mpr (hsub e ((hL.mem_iff e).mp he)), he⟩, And.right⟩

theorem pairwise_newestFirst (hnodup : (es.map Event.id).Nodup) :
    (Gather.newestFirst es).Pairwise Precedes := by
  have hsorted : (Gather.newestFirst es).Pairwise fun a b => a.standsBefore b = true := by
    refine List.pairwise_mergeSort (fun a b c hab hbc => ?_) (fun a b => ?_) es
    · rw [standsBefore_eq, Bool.not_eq_true'] at *
      exact not_isOlder_trans hab hbc
    · rw [standsBefore_eq, standsBefore_eq, ← Bool.not_and, Bool.not_eq_true',
        Bool.and_eq_false_imp]
      exact isOlder_asymm
  have hne : (Gather.newestFirst es).Pairwise fun a b => a.id ≠ b.id :=
    List.pairwise_map.mp (((List.mergeSort_perm es _).map Event.id).nodup_iff.mpr hnodup)
  refine (hsorted.and hne).imp fun ⟨hle, hid⟩ => ?_
  rw [standsBefore_eq, Bool.not_eq_true'] at hle
  exact precedes_iff.mpr (isOlderThan_total hid hle)

theorem sorts_newestFirst (hids : Identified es) :
    Sorts (Gather.newestFirst (distinctBy Event.id [] es)) (· ∈ es) where
  ordered := pairwise_newestFirst (nodup_map_distinctBy Event.id [] es)
  mem_iff e := by
    have hsub := (distinctBy_sublist Event.id [] es).subset
    rw [Gather.newestFirst, List.mem_mergeSort]
    refine ⟨fun he => hsub he, fun he => ?_⟩
    have hid : e.id ∈ (distinctBy Event.id [] es).map Event.id :=
      (mem_map_distinctBy Event.id).mpr ⟨List.mem_map_of_mem he, List.not_mem_nil⟩
    obtain ⟨e', he', heq⟩ := List.mem_map.mp hid
    exact hids e' (hsub he') e he heq ▸ he'

end Event

/-! ### The first events -/

/-- Members of related lists have a partner. -/
theorem exists_mem_of_forall₂ {α β : Type} {R : α → β → Prop} {as : List α} {bs : List β} {a : α}
    (h : List.Forall₂ R as bs) (ha : a ∈ as) : ∃ b ∈ bs, R a b := by
  induction h with
  | nil => cases ha
  | cons hab _ ih =>
    rcases List.mem_cons.mp ha with rfl | ha
    · exact ⟨_, List.mem_cons_self, hab⟩
    · obtain ⟨b, hb, hab⟩ := ih ha
      exact ⟨b, List.mem_cons_of_mem _ hb, hab⟩

namespace Gather
open Event
variable {limit : Option UInt64} {L L' top top' : List Event} {P P' : Event → Prop}
  {p : Event → Bool} {e : Event}

/-- **What a limit keeps** of a list: all of it where there is no limit or the limit is zero, else
the first so many. -/
inductive Keeps : Option UInt64 → List Event → List Event → Prop where
  | unlimited (L : List Event) : Keeps none L L
  | zero (L : List Event) : Keeps (some 0) L L
  | limited {n : UInt64} (L : List Event) (hn : n ≠ 0) : Keeps (some n) L (L.take n.toNat)

/-- Cutting a list leaves what the limit keeps of it. -/
theorem keeps_cut (limit : Option UInt64) (L : List Event) : Keeps limit L (cut limit L) := by
  cases limit with
  | none => exact .unlimited L
  | some n =>
    rw [cut]
    split
    · next hn => exact hn ▸ .zero L
    · next hn => exact .limited L hn

/-- A limit keeps all of every list, or as many of each. -/
theorem keeps_cases (limit : Option UInt64) :
    (∀ L top, Keeps limit L top ↔ top = L) ∨
      ∃ n, ∀ L top, Keeps limit L top ↔ top = L.take n := by
  cases limit with
  | none => exact .inl fun L top => ⟨fun | .unlimited _ => rfl, fun h => h ▸ .unlimited L⟩
  | some n =>
    by_cases hn : n = 0
    · subst hn
      refine .inl fun L top => ⟨fun h => ?_, fun h => h ▸ .zero L⟩
      cases h with
      | zero => rfl
      | limited _ hn => exact absurd rfl hn
    · refine .inr ⟨n.toNat, fun L top => ⟨fun h => ?_, fun h => h ▸ .limited L hn⟩⟩
      cases h with
      | zero => exact absurd rfl hn
      | limited => rfl

theorem Keeps.unique (h : Keeps limit L top) (h' : Keeps limit L top') : top = top' := by
  obtain hkeeps | ⟨n, hkeeps⟩ := keeps_cases limit
  · exact ((hkeeps _ _).mp h).trans ((hkeeps _ _).mp h').symm
  · exact ((hkeeps _ _).mp h).trans ((hkeeps _ _).mp h').symm

theorem Keeps.sublist (h : Keeps limit L top) : top.Sublist L := by
  cases h with
  | unlimited => exact List.Sublist.refl L
  | zero => exact List.Sublist.refl L
  | limited => exact List.take_sublist _ L

theorem filter_eq_take_append (p : Event → Bool) (n : Nat) (L : List Event) :
    L.filter p = (L.take n).filter p ++ (L.drop n).filter p := by
  rw [← List.filter_append, List.take_append_drop]

/-- What is among the first of some events is among the first of each part that has it. -/
theorem Keeps.mem_filter (h : Keeps limit L top) (h' : Keeps limit (L.filter p) top')
    (he : e ∈ top) (hp : p e = true) : e ∈ top' := by
  obtain hkeeps | ⟨n, hkeeps⟩ := keeps_cases limit
  · rw [hkeeps] at h h'
    subst h h'
    exact List.mem_filter.mpr ⟨he, hp⟩
  · rw [hkeeps] at h h'
    subst h h'
    have hlen : ((L.take n).filter p).length ≤ n :=
      (List.length_filter_le _ _).trans (List.length_take_le _ _)
    rw [filter_eq_take_append p n, List.take_append, List.take_of_length_le hlen]
    exact List.mem_append_left _ (List.mem_filter.mpr ⟨he, hp⟩)

/-- A part that has the first of some events begins with them. -/
theorem Keeps.filter (h : Keeps limit L top) (hp : ∀ e ∈ top, p e = true) :
    Keeps limit (L.filter p) top := by
  obtain hkeeps | ⟨n, hkeeps⟩ := keeps_cases limit
  · rw [hkeeps] at *
    subst h
    exact (List.filter_eq_self.mpr hp).symm
  · rw [hkeeps] at *
    subst h
    have hrest : ((L.drop n).filter p).take (n - (L.take n).length) = [] := by
      rcases Nat.le_total n L.length with hle | hle
      · rw [List.length_take_of_le hle, Nat.sub_self, List.take_zero]
      · rw [List.drop_of_length_le hle, List.filter_nil, List.take_nil]
    rw [filter_eq_take_append p n, List.filter_eq_self.mpr hp, List.take_append, hrest,
      List.append_nil, List.take_take, Nat.min_self]

/-- Events are **the first** of those of which something holds, up to a limit: what the limit keeps
when all are listed in the order of delivery. -/
def IsTop (limit : Option UInt64) (P : Event → Prop) (top : List Event) : Prop :=
  ∃ L, Sorts L P ∧ Keeps limit L top

theorem IsTop.unique (h : IsTop limit P top) (h' : IsTop limit P top') : top = top' := by
  obtain ⟨L, hL, hkeeps⟩ := h
  obtain ⟨L', hL', hkeeps'⟩ := h'
  obtain rfl := hL.unique hL'
  exact hkeeps.unique hkeeps'

/-- Which events are the first depends on nothing but which events there are. -/
theorem IsTop.congr (h : IsTop limit P top) (hiff : ∀ e, P e ↔ P' e) : IsTop limit P' top := by
  obtain ⟨L, hL, hkeeps⟩ := h
  exact ⟨L, hL.congr hiff, hkeeps⟩

theorem IsTop.ordered (h : IsTop limit P top) : top.Pairwise Precedes := by
  obtain ⟨L, hL, hkeeps⟩ := h
  exact hL.ordered.sublist hkeeps.sublist

theorem IsTop.holds (h : IsTop limit P top) (he : e ∈ top) : P e := by
  obtain ⟨L, hL, hkeeps⟩ := h
  exact (hL.mem_iff e).mp (hkeeps.sublist.subset he)

/-! ### What the sources answer -/

variable {held answers answers' : List (Except RelayError (List Event))}

/-- An event is **among some answers**: a source that has not failed has answered with it. -/
def Among (answers : List (Except RelayError (List Event))) (e : Event) : Prop :=
  ∃ es, .ok es ∈ answers ∧ e ∈ es

theorem mem_answered : e ∈ answered answers ↔ Among answers e := by
  rw [answered, List.mem_flatMap]
  constructor
  · rintro ⟨_ | es, hanswer, he⟩
    · cases he
    · exact ⟨es, hanswer, he⟩
  · rintro ⟨es, hanswer, he⟩
    exact ⟨.ok es, hanswer, he⟩

/-- Answers **agree**: whichever of them have an event of some identifier, it is the same event. -/
def Agree (answers : List (Except RelayError (List Event))) : Prop :=
  ∀ a b, Among answers a → Among answers b → a.id = b.id → a = b

theorem agree_iff : Agree answers ↔ Identified (answered answers) := by
  constructor
  · exact fun h a ha b hb => h a b (mem_answered.mp ha) (mem_answered.mp hb)
  · exact fun h a b ha hb => h a (mem_answered.mpr ha) b (mem_answered.mpr hb)

instance (answers : List (Except RelayError (List Event))) : Decidable (Agree answers) :=
  decidable_of_iff _ agree_iff.symm

/-- What is gathered is the first of what the sources answered. -/
theorem run_isTop (limit : Option UInt64) (hagree : Agree answers) :
    IsTop limit (Among answers) (run limit answers) := by
  have hsorts := sorts_newestFirst (agree_iff.mp hagree)
  exact ⟨_, hsorts.congr fun e => mem_answered, keeps_cut limit _⟩

/-- In whatever order answers that agree are gathered, the result is the same. -/
theorem run_perm (limit : Option UInt64) (hagree : Agree answers) (hperm : answers'.Perm answers) :
    run limit answers' = run limit answers := by
  have hamong : ∀ e, Among answers' e ↔ Among answers e := fun e =>
    exists_congr fun es => and_congr_left' hperm.mem_iff
  have hagree' : Agree answers' := fun a b ha hb =>
    hagree a b ((hamong a).mp ha) ((hamong b).mp hb)
  exact ((run_isTop limit hagree').congr hamong).unique (run_isTop limit hagree)

theorem nodup_run (limit : Option UInt64) (answers : List (Except RelayError (List Event))) :
    ((run limit answers).map Event.id).Nodup := by
  refine ((keeps_cut limit _).sublist.map Event.id).nodup ?_
  exact ((List.mergeSort_perm _ _).map Event.id).nodup_iff.mpr (nodup_map_distinctBy Event.id [] _)

/-- A source that **cuts its answer** hands out the first of the events it holds.  One that fails
fails whatever it holds. -/
inductive Cuts (limit : Option UInt64) :
    Except RelayError (List Event) → Except RelayError (List Event) → Prop where
  | failed (cause cause' : RelayError) : Cuts limit (.error cause) (.error cause')
  | answered {es top : List Event} : IsTop limit (· ∈ es) top → Cuts limit (.ok es) (.ok top)

/-- **Cutting early loses nothing**: the first of what the sources cut are the first of all that
they hold. -/
theorem IsTop.of_cut (hagree : Agree held) (hcut : List.Forall₂ (Cuts limit) held answers)
    (htop : IsTop limit (Among answers) top) : IsTop limit (Among held) top := by
  obtain ⟨L, hL, hkeeps⟩ := htop
  obtain ⟨U, hU, hUkeeps⟩ := run_isTop limit hagree
  have hsub : ∀ e, Among answers e → Among held e := by
    rintro e ⟨top, hanswer, he⟩
    obtain ⟨_, hheld, htop⟩ := exists_mem_of_forall₂ hcut.flip hanswer
    cases htop with
    | answered htop => exact ⟨_, hheld, htop.holds he⟩
  -- An event at the front of the union is at the front of each source that holds it.
  have hfront : ∀ e ∈ run limit held, e ∈ L := by
    intro e he
    obtain ⟨es, hheld, hes⟩ := (hU.mem_iff e).mp (hUkeeps.sublist.subset he)
    obtain ⟨_, hanswer, htop⟩ := exists_mem_of_forall₂ hcut hheld
    cases htop with
    | answered htop =>
      obtain ⟨S, hS, hSkeeps⟩ := htop
      rw [hS.eq_filter hU fun e he => ⟨es, hheld, he⟩] at hSkeeps
      have heS := hUkeeps.mem_filter hSkeeps he (decide_eq_true ((hS.mem_iff e).mpr hes))
      exact (hL.mem_iff e).mpr ⟨_, hanswer, heS⟩
  rw [hL.eq_filter hU hsub] at hkeeps
  have hfirst := hUkeeps.filter fun e he => decide_eq_true (hfront e he)
  exact ⟨U, hU, hkeeps.unique hfirst ▸ hUkeeps⟩

end Gather

/-! ### Relays -/

namespace Relay
open Event Gather
variable {σ : Type} {f : Filter} {sources sources' : List (Source σ)} {I : σ → Prop} {s s' : σ}
  {answers : List (Except RelayError (List Event))}

/-- Sources **answer** one after another, each in the state that the one before it has left. -/
inductive Answers (f : Filter) :
    List (Source σ) → σ → List (Except RelayError (List Event)) → Prop where
  | nil (s : σ) : Answers f [] s []
  | cons {source : Source σ} {sources : List (Source σ)} {s s' : σ}
      {answer : Except RelayError (List Event)} {answers : List (Except RelayError (List Event))}
      (hanswer : source f s = (answer, s')) (hrest : Answers f sources s' answers) :
      Answers f (source :: sources) s (answer :: answers)

/-- Asking all sources gives their answers, and there are no others. -/
theorem answers_iff : Answers f sources s answers ↔ answers = (askAll f sources s).1 := by
  constructor
  · intro h
    induction h with
    | nil => rfl
    | cons hanswer _ ih => rw [ih, askAll, hanswer]
  · rintro rfl
    induction sources generalizing s with
    | nil => exact .nil s
    | cons source sources ih => exact .cons rfl ih

/-- Sources that are **steady** while a relay asks them: each gives one answer, whatever sources
have been asked before it.  What holds meanwhile of the state is the parameter `I`. -/
structure Steady (f : Filter) (sources : List (Source σ)) (I : σ → Prop) : Prop where
  kept : ∀ source ∈ sources, ∀ t, I t → I (source f t).2
  answer : ∀ source ∈ sources, ∀ t t', I t → I t' → (source f t).1 = (source f t').1

/-- Steady sources answer as each would alone. -/
theorem Steady.askAll_eq (h : Steady f sources I) (hs : I s) :
    (askAll f sources s).1 = sources.map fun source => (source f s).1 := by
  suffices hgen : ∀ t, I t → (askAll f sources t).1 = sources.map fun source => (source f s).1 from
    hgen s hs
  induction sources with
  | nil => exact fun _ _ => rfl
  | cons source sources ih =>
    intro t ht
    have hrest : Steady f sources I :=
      ⟨fun a ha => h.kept a (List.mem_cons_of_mem _ ha),
        fun a ha => h.answer a (List.mem_cons_of_mem _ ha)⟩
    have hfirst := h.answer source List.mem_cons_self t s ht hs
    have hlater := ih hrest (source f t).2 (h.kept source List.mem_cons_self t ht)
    rw [List.map_cons, ← hfirst, ← hlater]
    rfl

theorem Steady.perm (h : Steady f sources I) (hperm : sources'.Perm sources) :
    Steady f sources' I :=
  ⟨fun a ha => h.kept a (hperm.subset ha), fun a ha => h.answer a (hperm.subset ha)⟩

/-- In whatever order steady sources are registered, their answers are the same. -/
theorem Steady.askAll_perm (h : Steady f sources I) (hperm : sources'.Perm sources) (hs : I s)
    (hs' : I s') : (askAll f sources' s').1.Perm (askAll f sources s).1 := by
  rw [(h.perm hperm).askAll_eq hs', h.askAll_eq hs]
  have heq : (sources'.map fun source => (source f s').1) =
      sources'.map fun source => (source f s).1 :=
    List.map_congr_left fun a ha => h.answer a (hperm.subset ha) s' s hs' hs
  rw [heq]
  exact hperm.map _

/-- A query **gives the first of the union** of what the sources answered: newest first, then by
identifier, each identifier once, up to the limit of the filter; a source that fails contributes
nothing.  Another order of steady sources makes no difference.  If the sources themselves hand out
only the first of what they hold, the result is the first of all that they hold. -/
theorem query_isTop (r : Relay σ) (f : Filter) (s : σ) (hanswers : Answers f r.sources s answers)
    (hagree : Agree answers) :
    IsTop f.limit (Among answers) (r.query f s).1 ∧
    (r.query f s).1.Pairwise Precedes ∧ ((r.query f s).1.map Event.id).Nodup ∧
    (∀ (r' : Relay σ) (s' : σ) (I : σ → Prop), r'.sources.Perm r.sources →
      Steady f r.sources I → I s → I s' → (r'.query f s').1 = (r.query f s).1) ∧
    ∀ held, Agree held → List.Forall₂ (Cuts f.limit) held answers →
      IsTop f.limit (Among held) (r.query f s).1 := by
  obtain rfl := answers_iff.mp hanswers
  have htop : IsTop f.limit (Among (askAll f r.sources s).1) (r.query f s).1 :=
    run_isTop f.limit hagree
  refine ⟨htop, htop.ordered, ?_, ?_, fun held hheld hcut => htop.of_cut hheld hcut⟩
  · exact nodup_run f.limit _
  · intro r' s' I hperm hsteady hs hs'
    exact run_perm f.limit hagree (hsteady.askAll_perm hperm hs hs')

/-- Two sources share an event, and one between them is down.  Without a limit, or with a limit of
zero, all their events are given.  A limit of two gives two, which are the first even of what the
sources have cut away, and the same in another order of the sources. -/
theorem query_isTop_overlapping :
    let newest : Event := .uniform 3 7 30 1 []
    let shared : Event := .uniform 1 7 20 1 []
    let tied : Event := .uniform 2 7 20 1 []
    let oldest : Event := .uniform 4 7 10 1 []
    let first : Source Unit := fun _ s => (.ok [newest, shared], s)
    let down : Source Unit := fun _ s => (.error (.source "down"), s)
    let second : Source Unit := fun _ s => (.ok [shared, tied], s)
    let r : Relay Unit := ⟨[], [], [first, down, second]⟩
    let upTo (limit : Option UInt64) : Filter := { Filter.any with limit := limit }
    let held : List (Except RelayError (List Event)) :=
      [.ok [newest, shared, oldest], .error (.source "down"), .ok [shared, tied, oldest]]
    (r.query (upTo none) ()).1 = [newest, shared, tied] ∧
    (r.query (upTo (some 0)) ()).1 = [newest, shared, tied] ∧
    (r.query (upTo (some 2)) ()).1 = [newest, shared] ∧
    IsTop (some 2) (Among held) (r.query (upTo (some 2)) ()).1 ∧
    ((⟨[], [], [second, first, down]⟩ : Relay Unit).query (upTo (some 2)) ()).1 =
      (r.query (upTo (some 2)) ()).1 := by
  intro newest shared tied oldest first down second r upTo held
  let answers : List (Except RelayError (List Event)) :=
    [.ok [newest, shared], .error (.source "down"), .ok [shared, tied]]
  have hanswers (f : Filter) : Answers f r.sources () answers :=
    .cons rfl (.cons rfl (.cons rfl (.nil ())))
  have hagree : Agree answers := by decide
  have hsorts : Sorts [newest, shared, tied] (Among answers) :=
    ⟨by decide, fun e => by simp only [Among, answers]; grind⟩
  have hfirst : IsTop (some 2) (· ∈ [newest, shared, oldest]) [newest, shared] :=
    ⟨_, ⟨by decide, fun _ => Iff.rfl⟩, .limited _ (by decide)⟩
  have hsecond : IsTop (some 2) (· ∈ [shared, tied, oldest]) [shared, tied] :=
    ⟨_, ⟨by decide, fun _ => Iff.rfl⟩, .limited _ (by decide)⟩
  have hunlimited := (query_isTop r (upTo none) () (hanswers _) hagree).1
  have hzero := (query_isTop r (upTo (some 0)) () (hanswers _) hagree).1
  obtain ⟨htop, -, -, hperm, hheld⟩ := query_isTop r (upTo (some 2)) () (hanswers _) hagree
  refine ⟨?_, ?_, ?_, ?_, ?_⟩
  · exact hunlimited.unique ⟨_, hsorts, .unlimited _⟩
  · exact hzero.unique ⟨_, hsorts, .zero _⟩
  · exact htop.unique ⟨_, hsorts, .limited _ (by decide)⟩
  · exact hheld held (by decide)
      (.cons (.answered hfirst) (.cons (.failed _ _) (.cons (.answered hsecond) .nil)))
  · have hsteady : Steady (upTo (some 2)) r.sources fun _ => True := by
      refine ⟨fun _ _ _ _ => trivial, fun source hsource _ _ _ _ => ?_⟩
      rfl
    have hswap := (List.perm_append_singleton second [first, down]).symm
    exact hperm _ () _ hswap hsteady trivial trivial

end Relay
end EventArchive
