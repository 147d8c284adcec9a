import EventArchive.Proofs.SortedMap
import EventArchive.Proofs.StoredRoundTrip

/-! # The order of delivery

Records are delivered newest first, and those of one time by their identifiers,
the smallest first.  Wherever records are compared for that, the one that comes
later is the older one (`ByAge`), so every such comparison ranks them (`Ranks`).
What is merged by it is in each order that agrees with it (`Agrees`): its own, and
that of the times alone.
-/
namespace EventArchive

/-! ### Ages -/

section
variable {t t' t'' : Int64} {i i' i'' : EventId}

theorem isOlder_iff :
    isOlder t i t' i' = true ↔ t < t' ∨ t = t' ∧ compare i.bytes i'.bytes = .gt := by
  rw [isOlder, Bool.or_eq_true, Bool.and_eq_true, decide_eq_true_eq, beq_iff_eq, beq_iff_eq]
  exact Iff.rfl

/-- Being older is coming later in the order of delivery: newest first, then the smaller
identifier. -/
theorem later_eq_isOlder (t : Int64) (i : EventId) (t' : Int64) (i' : EventId) :
    (decide (t < t') || (t' == t && compare i' i == .lt)) = isOlder t i t' i' := by
  have hflip : compare i'.bytes i.bytes = .lt ↔ compare i.bytes i'.bytes = .gt :=
    Std.OrientedCmp.gt_iff_lt.symm
  rw [Bool.eq_iff_iff, isOlder_iff, ← hflip, Bool.or_eq_true, decide_eq_true_eq, Bool.and_eq_true,
    beq_iff_eq, beq_iff_eq, eq_comm (a := t')]
  exact Iff.rfl

theorem isOlder_trans (h : isOlder t i t' i' = true) (h' : isOlder t' i' t'' i'' = true) :
    isOlder t i t'' i'' = true := by
  rw [isOlder_iff] at *
  rcases h with h | ⟨h, hid⟩
  · rcases h' with h' | ⟨h', -⟩
    · exact .inl (Int64.lt_trans h h')
    · exact .inl (h' ▸ h)
  · rcases h' with h' | ⟨h', hid'⟩
    · exact .inl (h ▸ h')
    · exact .inr ⟨h.trans h', Std.TransCmp.gt_trans hid hid'⟩

theorem not_isOlder_self (t : Int64) (i : EventId) : ¬ isOlder t i t i = true := by
  rw [isOlder_iff]
  rintro (hlt | ⟨-, hgt⟩)
  · exact Int64.lt_irrefl hlt
  · exact SortedMap.not_compare_self_gt _ hgt

/-- What is not older is newer or of the same age. -/
theorem isOlder_or_eq (h : isOlder t i t' i' = false) :
    isOlder t' i' t i = true ∨ t = t' ∧ i = i' := by
  rw [Bool.eq_false_iff, Ne, isOlder_iff, not_or, not_and] at h
  obtain ⟨hle, hgt⟩ := h
  rw [isOlder_iff]
  by_cases heq : t = t'
  · cases hcmp : compare i'.bytes i.bytes with
    | lt => exact absurd (Std.OrientedCmp.gt_iff_lt.mpr hcmp) (hgt heq)
    | eq =>
      exact .inr ⟨heq, FixedBytes.ext_bytes (Std.LawfulEqCmp.eq_of_compare hcmp).symm⟩
    | gt => exact .inl (.inr ⟨heq.symm, rfl⟩)
  · exact .inl (.inl (Int64.lt_of_le_of_ne (Int64.not_lt.mp hle) (Ne.symm heq)))

/-- Nothing is both older and newer. -/
theorem isOlder_asymm (h : isOlder t i t' i' = true) : isOlder t' i' t i = false :=
  Bool.eq_false_iff.mpr fun h' => not_isOlder_self t i (isOlder_trans h h')

/-- Being no older is transitive. -/
theorem not_isOlder_trans (h : isOlder t i t' i' = false) (h' : isOlder t' i' t'' i'' = false) :
    isOlder t i t'' i'' = false := by
  rcases isOlder_or_eq h with hlt | ⟨rfl, rfl⟩
  · rcases isOlder_or_eq h' with hlt' | ⟨rfl, rfl⟩
    · exact isOlder_asymm (isOlder_trans hlt' hlt)
    · exact h
  · exact h'

end

/-! ### Comparisons -/

section
variable {α : Type} {precedes : α → α → Bool} {R : α → α → Prop} {a b : α}

/-- A comparison that ranks things, some of them perhaps equally. -/
structure Ranks (precedes : α → α → Bool) : Prop where
  asymm : ∀ {a b}, precedes a b = true → precedes b a = false
  trans : ∀ {a b c}, precedes a b = false → precedes b c = false → precedes a c = false

theorem Ranks.irrefl (hP : Ranks precedes) (a : α) : precedes a a = false := by
  cases h : precedes a a with
  | true => exact h.symm.trans (hP.asymm h)
  | false => rfl

/-- An order that agrees with a comparison. -/
structure Agrees (precedes : α → α → Bool) (R : α → α → Prop) : Prop where
  trans : ∀ {a b c}, R a b → R b c → R a c
  left : ∀ {a b}, precedes a b = false → R b a

theorem Agrees.taken (hR : Agrees precedes R) (hP : Ranks precedes)
    (h : precedes a b = true) : R a b :=
  hR.left (hP.asymm h)

theorem Agrees.refl (hR : Agrees precedes R) (hP : Ranks precedes) (a : α) : R a a :=
  hR.left (hP.irrefl a)

/-- A comparison agrees with itself. -/
theorem Ranks.agrees (hP : Ranks precedes) : Agrees precedes fun a b => precedes b a = false where
  trans hab hbc := hP.trans hbc hab
  left h := h

/-- A comparison of things with times and identifiers: the older ones come later. -/
def ByAge (precedes : α → α → Bool) (time : α → Int64) (id : α → EventId) : Prop :=
  ∀ a b, precedes a b = isOlder (time b) (id b) (time a) (id a)

variable {time : α → Int64} {id : α → EventId}

theorem ByAge.ranks (h : ByAge precedes time id) : Ranks precedes where
  asymm {a b} hab := by
    rw [h] at *
    exact isOlder_asymm hab
  trans {a b c} hab hbc := by
    rw [h] at *
    exact not_isOlder_trans hbc hab

/-- The order of times agrees with it. -/
theorem ByAge.agrees_newest (h : ByAge precedes time id) :
    Agrees precedes fun a b => time b ≤ time a where
  trans hab hbc := Int64.le_trans hbc hab
  left {a b} hab := by
    rw [h, Bool.eq_false_iff, Ne, isOlder_iff, not_or] at hab
    exact Int64.not_lt.mp hab.1

end
end EventArchive
