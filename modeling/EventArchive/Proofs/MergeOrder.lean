import Mathlib
import EventArchive.Proofs.DeliveryOrder
import EventArchive.Query.Merge

/-! # Merging keeps the order

Each step of a merge takes the hit at the front of a scan that comes before the other
fronts, of several such the one of the earliest scan (`Merge.exists_front_of_pop`).  An
order that agrees with this comparison (`Agrees`) and in which every scan delivers its
hits is therefore the order in which the merge delivers those of all scans.  Any other
order of the hits of one scan is kept as well, but says nothing about those of
different ones (`Merge.Apart`).  A merge leaves none out, and delivers each record once.
-/
namespace EventArchive

/-- Hits that come newest first. -/
def NewestFirst (hits : List Hit) : Prop := hits.Pairwise fun a b => b.createdAt ≤ a.createdAt

/-- One hit is delivered before another one that is older. -/
theorem Hit.precedes_byAge : ByAge Hit.precedes Hit.createdAt (·.record.id) :=
  fun a b => later_eq_isOlder b.createdAt b.record.id a.createdAt a.record.id

theorem Hit.ranks : Ranks Hit.precedes := precedes_byAge.ranks

/-- One hit **is not after** another one: it is newer, or of the same time and of no greater
identifier. -/
def Hit.NotAfter (a b : Hit) : Prop :=
  b.createdAt < a.createdAt ∨
    a.createdAt = b.createdAt ∧ (compare a.record.id b.record.id).isLE = true

theorem Hit.notAfter_iff {a b : Hit} : a.NotAfter b ↔ b.precedes a = false := by
  have hid : compare a.record.id b.record.id = compare a.record.id.bytes b.record.id.bytes := rfl
  rw [NotAfter, precedes_byAge, Bool.eq_false_iff, Ne, isOlder_iff, not_or, not_and,
    Int64.not_lt, hid, Ordering.isLE_iff_ne_gt]
  constructor
  · rintro (hlt | ⟨heq, hle⟩)
    · exact ⟨Int64.le_of_lt hlt, fun heq => absurd (heq ▸ hlt) Int64.lt_irrefl⟩
    · exact ⟨Int64.le_of_eq heq.symm, fun _ => hle⟩
  · rintro ⟨hle, hties⟩
    by_cases heq : a.createdAt = b.createdAt
    · exact .inr ⟨heq, hties heq⟩
    · exact .inl (Int64.lt_of_le_of_ne hle (Ne.symm heq))

namespace Merge
variable {scans rest : List (List Hit)} {h x : Hit} {a b : Head} {R : Hit → Hit → Prop}

/-! ### Fronts -/

namespace Head

theorem precedes_eq_false_iff : a.precedes b = false ↔
    a.hit.precedes b.hit = false ∧ (b.hit.precedes a.hit = true ∨ b.scan ≤ a.scan) := by
  rw [precedes, Bool.or_eq_false_iff, Bool.and_eq_false_iff, Bool.not_eq_false',
    decide_eq_false_iff_not, Nat.not_lt]

theorem ranks : Ranks precedes where
  asymm {a b} hab := by
    rw [precedes, Bool.or_eq_true, Bool.and_eq_true, Bool.not_eq_true', decide_eq_true_eq] at hab
    rw [precedes_eq_false_iff]
    rcases hab with hab | ⟨hba, hscan⟩
    · exact ⟨Hit.ranks.asymm hab, .inl hab⟩
    · exact ⟨hba, .inr (Nat.le_of_lt hscan)⟩
  trans {a b c} hab hbc := by
    rw [precedes_eq_false_iff] at *
    refine ⟨Hit.ranks.trans hab.1 hbc.1, ?_⟩
    cases hca : c.hit.precedes a.hit with
    | true => exact .inl rfl
    | false =>
      -- the three hits rank equally, so their scans decide
      have hba : b.hit.precedes a.hit = false := Hit.ranks.trans hbc.1 hca
      have hcb : c.hit.precedes b.hit = false := Hit.ranks.trans hca hab.1
      rw [hba] at hab
      rw [hcb] at hbc
      exact .inr (Nat.le_trans (hbc.2.resolve_left Bool.false_ne_true)
        (hab.2.resolve_left Bool.false_ne_true))

/-- Of hits of two scans, one precedes the other. -/
theorem scan_eq (hab : a.precedes b = false) (hba : b.precedes a = false) : a.scan = b.scan := by
  rw [precedes_eq_false_iff] at hab hba
  rw [hba.1] at hab
  rw [hab.1] at hba
  exact Nat.le_antisymm (hba.2.resolve_left Bool.false_ne_true)
    (hab.2.resolve_left Bool.false_ne_true)

theorem precedes_succ (h h' : Hit) (i j : Nat) :
    (⟨h, i + 1⟩ : Head).precedes ⟨h', j + 1⟩ = (⟨h, i⟩ : Head).precedes ⟨h', j⟩ := by
  simp only [precedes, Nat.add_lt_add_iff_right]

/-- A hit is **at the front** of its scan. -/
def IsFront (scans : List (List Hit)) (head : Head) : Prop :=
  ∃ hs, scans[head.scan]? = some (head.hit :: hs)

theorem IsFront.eq (ha : a.IsFront scans) (hb : b.IsFront scans) (hscan : a.scan = b.scan) :
    a = b := by
  obtain ⟨_, ha⟩ := ha
  obtain ⟨_, hb⟩ := hb
  rw [hscan, hb] at ha
  cases a
  cases b
  cases ha
  cases hscan
  rfl

theorem IsFront.mem (ha : a.IsFront scans) : a.hit ∈ scans.flatten := by
  obtain ⟨_, ha⟩ := ha
  exact List.mem_flatten.mpr ⟨_, List.mem_of_getElem? ha, List.mem_cons_self⟩

end Head

/-! ### One step -/

theorem pop_eq_none (hpop : pop scans = none) : scans.flatten = [] := by
  induction scans with
  | nil => rfl
  | cons l scans ih =>
    cases l with
    | nil =>
      rw [pop, Option.map_eq_none_iff] at hpop
      rw [List.flatten_cons, List.nil_append, ih hpop]
    | cons h₀ hs =>
      rw [pop] at hpop
      split at hpop
      · cases hpop
      · split at hpop <;> cases hpop

/-- **A step takes the first of the fronts.** -/
theorem exists_front_of_pop (hpop : pop scans = some (h, rest)) :
    ∃ scan hs, scans[scan]? = some (h :: hs) ∧ rest = scans.set scan hs ∧
      ∀ head : Head, head.IsFront scans → head.precedes ⟨h, scan⟩ = false := by
  induction scans generalizing h rest with
  | nil => cases hpop
  | cons l scans ih =>
    cases l with
    | nil =>
      rw [pop] at hpop
      obtain ⟨⟨h', rest'⟩, hpop', heq⟩ := Option.map_eq_some_iff.mp hpop
      cases heq
      obtain ⟨scan, hs, hget, rfl, hfirst⟩ := ih hpop'
      refine ⟨scan + 1, hs, hget, rfl, ?_⟩
      rintro ⟨x, _ | i⟩ ⟨tail, hfront⟩
      · cases hfront
      · rw [Head.precedes_succ]
        exact hfirst ⟨x, i⟩ ⟨tail, hfront⟩
    | cons h₀ hs₀ =>
      rw [pop] at hpop
      split at hpop
      · rename_i hnone
        cases hpop
        refine ⟨0, hs₀, rfl, rfl, ?_⟩
        rintro ⟨x, _ | i⟩ ⟨tail, hfront⟩
        · cases hfront
          exact Head.ranks.irrefl _
        · have hx : x ∈ scans.flatten := Head.IsFront.mem (a := ⟨x, i⟩) ⟨tail, hfront⟩
          rw [pop_eq_none hnone] at hx
          cases hx
      · rename_i h' rest' hpop'
        obtain ⟨scan, hs, hget, rfl, hfirst⟩ := ih hpop'
        split at hpop
        · rename_i hprecedes
          cases hpop
          refine ⟨scan + 1, hs, hget, rfl, ?_⟩
          rintro ⟨x, _ | i⟩ ⟨tail, hfront⟩
          · cases hfront
            exact Head.precedes_eq_false_iff.mpr ⟨Hit.ranks.asymm hprecedes, .inl hprecedes⟩
          · rw [Head.precedes_succ]
            exact hfirst ⟨x, i⟩ ⟨tail, hfront⟩
        · rename_i hstays
          cases hpop
          refine ⟨0, hs₀, rfl, rfl, ?_⟩
          rintro ⟨x, _ | i⟩ ⟨tail, hfront⟩
          · cases hfront
            exact Head.ranks.irrefl _
          · have hx := (Head.precedes_eq_false_iff.mp (hfirst ⟨x, i⟩ ⟨tail, hfront⟩)).1
            have hfront₀ := Hit.ranks.trans hx (Bool.eq_false_iff.mpr hstays)
            exact Head.precedes_eq_false_iff.mpr ⟨hfront₀, .inr (Nat.zero_le _)⟩

/-- A step takes one hit off the front of a scan. -/
theorem exists_of_pop (hpop : pop scans = some (h, rest)) :
    ∃ pre hs post, scans = pre ++ (h :: hs) :: post ∧ rest = pre ++ hs :: post := by
  obtain ⟨scan, hs, hget, rfl, -⟩ := exists_front_of_pop hpop
  obtain ⟨hlt, hget⟩ := List.getElem?_eq_some_iff.mp hget
  refine ⟨scans.take scan, hs, scans.drop (scan + 1), ?_, ?_⟩
  · rw [← hget, List.getElem_cons_drop, List.take_append_drop]
  · rw [List.set_eq_take_append_cons_drop, if_pos hlt]

theorem pop_perm (hpop : pop scans = some (h, rest)) :
    scans.flatten.Perm (h :: rest.flatten) := by
  obtain ⟨pre, hs, post, rfl, rfl⟩ := exists_of_pop hpop
  simp only [List.flatten_append, List.flatten_cons, List.cons_append]
  exact List.perm_middle

/-- A step takes the first of all hits, and the scans stay in order. -/
theorem pop_first (hR : Agrees Hit.precedes R) (hsorted : ∀ l ∈ scans, l.Pairwise R)
    (hpop : pop scans = some (h, rest)) :
    (∀ x ∈ scans.flatten, R h x) ∧ ∀ l ∈ rest, l.Pairwise R := by
  obtain ⟨scan, hs, hget, rfl, hfirst⟩ := exists_front_of_pop hpop
  refine ⟨fun x hx => ?_, fun l hl => ?_⟩
  · obtain ⟨l, hl, hx⟩ := List.mem_flatten.mp hx
    obtain ⟨i, hi⟩ := List.mem_iff_getElem?.mp hl
    cases l with
    | nil => cases hx
    | cons front tail =>
      -- the front of its scan is between the hit that is taken and any other one
      have hbehind : front.precedes h = false :=
        (Head.precedes_eq_false_iff.mp (hfirst ⟨front, i⟩ ⟨tail, hi⟩)).1
      rcases List.mem_cons.mp hx with rfl | hx
      · exact hR.left hbehind
      · exact hR.trans (hR.left hbehind) ((List.pairwise_cons.mp (hsorted _ hl)).1 x hx)
  · rcases List.mem_or_eq_of_mem_set hl with hl | rfl
    · exact hsorted l hl
    · exact (List.pairwise_cons.mp (hsorted _ (List.mem_of_getElem? hget))).2

/-! ### All steps -/

/-- A merge with enough fuel takes every hit. -/
theorem interleave_perm {fuel : Nat} (hfuel : scans.flatten.length ≤ fuel) :
    (interleave fuel scans).Perm scans.flatten := by
  induction fuel generalizing scans with
  | zero =>
    rw [List.length_eq_zero_iff.mp (Nat.le_zero.mp hfuel)]
    exact List.Perm.refl _
  | succ fuel ih =>
    rw [interleave]
    split
    · rename_i hpop
      rw [pop_eq_none hpop]
    · rename_i h rest hpop
      have hperm := pop_perm hpop
      have hlen := hperm.length_eq
      rw [List.length_cons] at hlen
      exact ((ih (by omega)).cons h).trans hperm.symm

/-- What is taken comes from the scans. -/
theorem mem_of_mem_interleave {fuel : Nat} (hx : x ∈ interleave fuel scans) :
    x ∈ scans.flatten := by
  induction fuel generalizing scans with
  | zero => cases hx
  | succ fuel ih =>
    rw [interleave] at hx
    split at hx
    · cases hx
    · rename_i h rest hpop
      refine (pop_perm hpop).mem_iff.mpr ?_
      rcases List.mem_cons.mp hx with rfl | hx
      · exact List.mem_cons_self
      · exact List.mem_cons_of_mem _ (ih hx)

/-- A relation that the hit of each step has to all that are left is kept by a merge. -/
theorem all_pairwise_of_pop {P : List (List Hit) → Prop}
    (hstep : ∀ {scans h rest}, P scans → pop scans = some (h, rest) →
      (∀ x ∈ rest.flatten, R h x) ∧ P rest)
    (hP : P scans) : (all scans).Pairwise R := by
  have hall : ∀ fuel, (interleave fuel scans).Pairwise R := by
    intro fuel
    induction fuel generalizing scans with
    | zero => exact List.Pairwise.nil
    | succ fuel ih =>
      rw [interleave]
      split
      · exact List.Pairwise.nil
      · rename_i h rest hpop
        obtain ⟨hfirst, hrest⟩ := hstep hP hpop
        exact List.pairwise_cons.mpr
          ⟨fun x hx => hfirst x (mem_of_mem_interleave hx), ih hrest⟩
  exact (hall _).sublist (distinctBy_sublist Hit.serial [] _)

/-- **A merge keeps the order of its scans**, if that agrees with its comparison. -/
theorem all_pairwise (hR : Agrees Hit.precedes R) (hsorted : ∀ l ∈ scans, l.Pairwise R) :
    (all scans).Pairwise R := by
  refine all_pairwise_of_pop (P := fun scans => ∀ l ∈ scans, l.Pairwise R) (fun hP hpop => ?_)
    hsorted
  obtain ⟨hfirst, hrest⟩ := pop_first hR hP hpop
  exact ⟨fun x hx => hfirst x ((pop_perm hpop).mem_iff.mpr (List.mem_cons_of_mem _ hx)), hrest⟩

/-- Scans in which, and between which, every hit is in some relation to those after it. -/
structure Apart (R : Hit → Hit → Prop) (scans : List (List Hit)) : Prop where
  within : ∀ l ∈ scans, l.Pairwise R
  across : scans.Pairwise fun l l' => ∀ a ∈ l, ∀ b ∈ l', R a b ∧ R b a

/-- The hit that a step takes is in the relation to all that are left, wherever they are. -/
theorem Apart.pop (hR : Apart R scans) (hpop : pop scans = some (h, rest)) :
    (∀ x ∈ rest.flatten, R h x) ∧ Apart R rest := by
  obtain ⟨pre, hs, post, rfl, rfl⟩ := exists_of_pop hpop
  obtain ⟨hwithin, hacross⟩ := hR
  obtain ⟨hpre, hmid, hcross⟩ := List.pairwise_append.mp hacross
  obtain ⟨hhead, hpost⟩ := List.pairwise_cons.mp hmid
  obtain ⟨hfirst, hhs⟩ :=
    List.pairwise_cons.mp (hwithin _ (List.mem_append_right _ List.mem_cons_self))
  refine ⟨fun x hx => ?_, fun l hl => ?_, ?_⟩
  · rw [List.flatten_append, List.flatten_cons, List.mem_append, List.mem_append] at hx
    rcases hx with hx | hx | hx
    · obtain ⟨l, hl, hx⟩ := List.mem_flatten.mp hx
      exact (hcross l hl _ List.mem_cons_self x hx h List.mem_cons_self).2
    · exact hfirst x hx
    · obtain ⟨l, hl, hx⟩ := List.mem_flatten.mp hx
      exact (hhead l hl h List.mem_cons_self x hx).1
  · rcases List.mem_append.mp hl with hl | hl
    · exact hwithin l (List.mem_append_left _ hl)
    · rcases List.mem_cons.mp hl with rfl | hl
      · exact hhs
      · exact hwithin l (List.mem_append_right _ (List.mem_cons_of_mem _ hl))
  · refine List.pairwise_append.mpr ⟨hpre, List.pairwise_cons.mpr ⟨fun l hl a ha => ?_, hpost⟩,
      fun l hl l' hl' a ha b hb => ?_⟩
    · exact hhead l hl a (List.mem_cons_of_mem _ ha)
    · rcases List.mem_cons.mp hl' with rfl | hl'
      · exact hcross l hl _ List.mem_cons_self a ha b (List.mem_cons_of_mem _ hb)
      · exact hcross l hl l' (List.mem_cons_of_mem _ hl') a ha b hb

/-- **A merge keeps the order of each of its scans**, also an order that has nothing to do with
its comparison. -/
theorem Apart.all (hR : Apart R scans) : (all scans).Pairwise R :=
  all_pairwise_of_pop (fun hP hpop => hP.pop hpop) hR

/-- **A merge delivers newest first.** -/
theorem all_sorted (hsorted : ∀ l ∈ scans, NewestFirst l) : NewestFirst (all scans) :=
  all_pairwise Hit.precedes_byAge.agrees_newest hsorted

/-- **A merge delivers each record once.** -/
theorem all_nodup (scans : List (List Hit)) : ((all scans).map Hit.serial).Nodup :=
  nodup_map_distinctBy Hit.serial [] _

/-- **A merge delivers every hit**, if a record is always the same hit. -/
theorem mem_all (hsame : ∀ a ∈ scans.flatten, ∀ b ∈ scans.flatten, a.serial = b.serial → a = b) :
    x ∈ all scans ↔ x ∈ scans.flatten := by
  have hperm : (interleave scans.flatten.length scans).Perm scans.flatten :=
    interleave_perm (Nat.le_refl _)
  have hsub : ∀ y ∈ all scans, y ∈ scans.flatten := fun y hy =>
    mem_of_mem_interleave ((distinctBy_sublist Hit.serial [] _).subset hy)
  refine ⟨hsub x, fun hx => ?_⟩
  -- a hit that was left out has the serial of one that was not, and so is the same
  have hserial : x.serial ∈ (all scans).map Hit.serial :=
    (mem_map_distinctBy Hit.serial).mpr
      ⟨List.mem_map_of_mem (hperm.mem_iff.mpr hx), List.not_mem_nil⟩
  obtain ⟨y, hy, heq⟩ := List.mem_map.mp hserial
  rwa [← hsame y (hsub y hy) x hx heq]

end Merge
end EventArchive
