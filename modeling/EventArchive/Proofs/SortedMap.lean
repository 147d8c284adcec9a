import Mathlib
import EventArchive.Data.SortedMap

/-! # What a sorted map holds

A sorted map is known by its look-ups: two maps that answer every key alike are
equal (`ext_get?`).  Each operation has one equation for the look-up after it,
so no later proof has to look at the list of entries.  A range is the part of
the look-ups between its bounds, in key order.
-/
namespace EventArchive
namespace SortedMap

variable {κ ν : Type} [Ord κ]

/-! ### Entries and look-ups -/

section Entries
variable [Std.TransOrd κ]

theorem not_compare_self_lt (k : κ) : compare k k ≠ .lt := by
  rw [Std.ReflOrd.compare_self]
  exact Ordering.noConfusion

theorem not_compare_self_gt (k : κ) : compare k k ≠ .gt := by
  rw [Std.ReflOrd.compare_self]
  exact Ordering.noConfusion

/-- Two lists in key order with the same members are the same list. -/
theorem entries_ext {l l' : List (κ × ν)} (hl : l.Pairwise (fun a b => compare a.1 b.1 = .lt))
    (hl' : l'.Pairwise (fun a b => compare a.1 b.1 = .lt)) (h : ∀ e, e ∈ l ↔ e ∈ l') :
    l = l' := by
  have nodup : ∀ {x : List (κ × ν)}, x.Pairwise (fun a b => compare a.1 b.1 = .lt) → x.Nodup := by
    intro x hx
    refine hx.imp fun {a b} hab he => ?_
    rw [he] at hab
    exact not_compare_self_lt _ hab
  refine ((List.perm_ext_iff_of_nodup (nodup hl) (nodup hl')).mpr h).eq_of_pairwise ?_ hl hl'
  intro a b _ _ hab hba
  exact absurd (Std.TransCmp.lt_trans hab hba) (not_compare_self_lt _)

variable [Std.LawfulEqOrd κ]

/-- In a list in key order, the search finds exactly the members. -/
theorem findEntry_eq_some_iff {k : κ} {v : ν} {l : List (κ × ν)}
    (hl : l.Pairwise (fun a b => compare a.1 b.1 = .lt)) :
    findEntry k l = some v ↔ (k, v) ∈ l := by
  induction l with
  | nil => simp [findEntry]
  | cons head rest ih =>
    obtain ⟨k', v'⟩ := head
    obtain ⟨hhead, hrest⟩ := List.pairwise_cons.mp hl
    have hne : ∀ w, (k', w) ∉ rest := fun w hm => not_compare_self_lt k' (hhead _ hm)
    rw [findEntry]
    split
    · rename_i hlt
      refine iff_of_false (by simp) fun h => ?_
      rcases List.mem_cons.mp h with h | h
      · obtain ⟨rfl, rfl⟩ := Prod.mk.inj h
        exact absurd hlt (not_compare_self_lt _)
      · exact absurd (Std.TransCmp.lt_trans hlt (hhead _ h)) (not_compare_self_lt _)
    · rename_i heq
      obtain rfl := Std.LawfulEqCmp.eq_of_compare heq
      simp [hne, eq_comm]
    · rename_i hgt
      rw [ih hrest]
      refine ⟨List.mem_cons_of_mem _, fun h => (List.mem_cons.mp h).resolve_left ?_⟩
      intro he
      obtain ⟨rfl, rfl⟩ := Prod.mk.inj he
      exact not_compare_self_gt _ hgt

theorem get?_eq_some_iff {m : SortedMap κ ν} {k : κ} {v : ν} :
    m.get? k = some v ↔ (k, v) ∈ m.entries :=
  findEntry_eq_some_iff m.sorted

theorem get?_eq_none_iff {m : SortedMap κ ν} {k : κ} :
    m.get? k = none ↔ ∀ v, (k, v) ∉ m.entries := by
  rw [Option.eq_none_iff_forall_ne_some]
  exact forall_congr' fun v => not_congr get?_eq_some_iff

/-- **A map is known by its look-ups.** -/
theorem ext_get? {m m' : SortedMap κ ν} (h : ∀ k, m.get? k = m'.get? k) : m = m' := by
  obtain ⟨l, hl⟩ := m
  obtain ⟨l', hl'⟩ := m'
  have heq : l = l' := entries_ext hl hl' fun e => by
    have he := h e.1
    rw [← Prod.mk.eta (p := e), ← findEntry_eq_some_iff hl, ← findEntry_eq_some_iff hl']
    exact iff_of_eq (congrArg (· = some e.2) he)
  subst heq
  rfl

end Entries

/-! ### Look-ups after each operation -/

@[simp] theorem get?_empty (k : κ) : (∅ : SortedMap κ ν).get? k = none := rfl

theorem get?_filter [Std.TransOrd κ] [Std.LawfulEqOrd κ] (m : SortedMap κ ν)
    (p : κ → ν → Bool) (k : κ) : (m.filter p).get? k = (m.get? k).filter (p k) := by
  refine Option.ext fun v => ?_
  rw [Option.filter_eq_some_iff, get?_eq_some_iff, get?_eq_some_iff]
  exact List.mem_filter

section Updates
variable [Std.TransOrd κ] [Std.LawfulEqOrd κ] [DecidableEq κ]

theorem findEntry_insertEntry (k k' : κ) (v : ν) (l : List (κ × ν)) :
    findEntry k' (insertEntry k v l) = if k' = k then some v else findEntry k' l := by
  induction l with
  | nil =>
    rw [insertEntry, findEntry, findEntry]
    by_cases hk : k' = k
    · subst hk
      simp
    · have hne : compare k' k ≠ .eq := fun he => hk (Std.LawfulEqCmp.eq_of_compare he)
      rw [if_neg hk]
      cases hc : compare k' k <;> simp_all [findEntry]
  | cons head rest ih =>
    obtain ⟨k₀, v₀⟩ := head
    rw [insertEntry]
    split
    · rename_i hlt
      rw [findEntry]
      split
      · rename_i hlt'
        have hk : k' ≠ k := by
          rintro rfl
          exact not_compare_self_lt _ hlt'
        rw [if_neg hk, findEntry, Std.TransCmp.lt_trans hlt' hlt]
      · rename_i heq
        rw [if_pos (Std.LawfulEqCmp.eq_of_compare heq)]
      · rename_i hgt
        have hk : k' ≠ k := by
          rintro rfl
          exact not_compare_self_gt _ hgt
        rw [if_neg hk]
    · rename_i heq
      obtain rfl := Std.LawfulEqCmp.eq_of_compare heq
      rw [findEntry, findEntry]
      by_cases hk : k' = k
      · subst hk
        simp
      · have hne : compare k' k ≠ .eq := fun he => hk (Std.LawfulEqCmp.eq_of_compare he)
        rw [if_neg hk]
        cases hc : compare k' k <;> simp_all
    · rename_i hgt
      rw [findEntry, findEntry, ih]
      by_cases hk : k' = k
      · subst hk
        simp [hgt]
      · simp only [if_neg hk]

@[simp] theorem get?_insert (m : SortedMap κ ν) (k k' : κ) (v : ν) :
    (m.insert k v).get? k' = if k' = k then some v else m.get? k' :=
  findEntry_insertEntry k k' v m.entries

@[simp] theorem get?_erase (m : SortedMap κ ν) (k k' : κ) :
    (m.erase k).get? k' = if k' = k then none else m.get? k' := by
  rw [erase, get?_filter]
  by_cases hk : k' = k
  · subst hk
    cases h : m.get? k' <;> simp [Option.filter]
  · have hne : compare k k' ≠ .eq := fun he => hk (Std.LawfulEqCmp.eq_of_compare he).symm
    cases h : m.get? k' <;> simp [Option.filter, hk, hne]

@[simp] theorem get?_eraseAll (m : SortedMap κ ν) (ks : List κ) (k' : κ) :
    (m.eraseAll ks).get? k' = if k' ∈ ks then none else m.get? k' := by
  unfold eraseAll
  induction ks generalizing m with
  | nil => simp
  | cons k ks ih =>
    rw [List.foldl_cons, ih, get?_erase]
    by_cases hk : k' = k <;> by_cases hks : k' ∈ ks <;> simp [hk, hks]

@[simp] theorem get?_insertAll (m : SortedMap κ ν) (ks : List κ) (v : ν) (k' : κ) :
    (m.insertAll ks v).get? k' = if k' ∈ ks then some v else m.get? k' := by
  unfold insertAll
  induction ks generalizing m with
  | nil => simp
  | cons k ks ih =>
    rw [List.foldl_cons, ih, get?_insert]
    by_cases hk : k' = k <;> by_cases hks : k' ∈ ks <;> simp [hk, hks]

end Updates

/-! ### Keys and ranges -/

section Ranges
variable [Std.TransOrd κ] [Std.LawfulEqOrd κ]

theorem mem_keys {m : SortedMap κ ν} {k : κ} : k ∈ m.keys ↔ (m.get? k).isSome := by
  rw [Option.isSome_iff_exists, keys, List.mem_map]
  constructor
  · rintro ⟨⟨k', v⟩, hm, rfl⟩
    exact ⟨v, get?_eq_some_iff.mpr hm⟩
  · rintro ⟨v, hv⟩
    exact ⟨(k, v), get?_eq_some_iff.mp hv, rfl⟩

theorem isEmpty_iff {m : SortedMap κ ν} : m.isEmpty = true ↔ ∀ k, m.get? k = none := by
  constructor
  · intro h k
    exact get?_eq_none_iff.mpr fun v hv => by
      rw [List.isEmpty_iff.mp h] at hv
      cases hv
  · intro h
    refine List.isEmpty_iff.mpr (List.eq_nil_iff_forall_not_mem.mpr fun e he => ?_)
    exact get?_eq_none_iff.mp (h e.1) e.2 he

theorem mem_range {m : SortedMap κ ν} {lower upper k : κ} {v : ν} :
    (k, v) ∈ m.range lower upper ↔
      m.get? k = some v ∧ (compare lower k).isLE ∧ compare k upper = .lt := by
  rw [range, List.mem_filter, get?_eq_some_iff]
  simp

theorem mem_rangeThrough {m : SortedMap κ ν} {lower upper k : κ} {v : ν} :
    (k, v) ∈ m.rangeThrough lower upper ↔
      m.get? k = some v ∧ (compare lower k).isLE ∧ (compare k upper).isLE := by
  rw [rangeThrough, List.mem_filter, get?_eq_some_iff]
  simp

omit [Std.TransOrd κ] [Std.LawfulEqOrd κ] in
theorem range_sorted (m : SortedMap κ ν) (lower upper : κ) :
    (m.range lower upper).Pairwise (fun a b => compare a.1 b.1 = .lt) :=
  m.sorted.filter _

end Ranges
end SortedMap
end EventArchive
