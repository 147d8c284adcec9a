import Mathlib.Logic.Equiv.Basic
import EventArchive.Data.Heap
import EventArchive.Proofs.DeliveryOrder

/-! # Heaps give out what comes first

The entries of a heap are in the order of a tree: none is ahead of its parent
(`Heap.Ordered`).  While an entry moves through the tree, the order holds of all
others, and those below the place of the entry are not ahead of the one above it
(`Heap.OrderedBut`); a swap with the parent or with the child that rises keeps
that.  So adding and taking entries keep the order, the root is an entry that no
other one is ahead of, and no entry gets lost or is made up.
-/
namespace EventArchive
namespace Heap
variable {α : Type} {ahead : α → α → Bool} {entries : Array α} {i j k c : Nat} {heap : Heap α}
  {a b : α}

/-! ### Positions -/

theorem isAhead_of_getElem? (ha : entries[i]? = some a) (hb : entries[j]? = some b) :
    isAhead ahead entries i j = ahead a b := by
  rw [isAhead, ha, hb]

theorem isAhead_of_size_le (hi : entries.size ≤ i) : isAhead ahead entries i j = false := by
  rw [isAhead, Array.getElem?_eq_none hi]

theorem isAhead_congr {entries' : Array α} {i' j' : Nat} (hi : entries'[i']? = entries[i]?)
    (hj : entries'[j']? = entries[j]?) :
    isAhead ahead entries' i' j' = isAhead ahead entries i j := by
  rw [isAhead, isAhead, hi, hj]

theorem isAhead_asymm (hA : Ranks ahead) (h : isAhead ahead entries i j = true) :
    isAhead ahead entries j i = false := by
  cases ha : entries[i]? with
  | none => rw [isAhead, ha] at h; cases h
  | some a =>
    cases hb : entries[j]? with
    | none => rw [isAhead, ha, hb] at h; cases h
    | some b =>
      rw [isAhead_of_getElem? ha hb] at h
      rw [isAhead_of_getElem? hb ha]
      exact hA.asymm h

theorem isAhead_trans (hA : Ranks ahead) (hj : j < entries.size)
    (h : isAhead ahead entries i j = false) (h' : isAhead ahead entries j k = false) :
    isAhead ahead entries i k = false := by
  have hb : entries[j]? = some entries[j] := Array.getElem?_eq_getElem hj
  cases ha : entries[i]? with
  | none => rw [isAhead, ha]
  | some a =>
    cases hc : entries[k]? with
    | none => rw [isAhead, ha, hc]
    | some c =>
      rw [isAhead_of_getElem? ha hb] at h
      rw [isAhead_of_getElem? hb hc] at h'
      rw [isAhead_of_getElem? ha hc]
      exact hA.trans h h'

/-- What is where after two entries were swapped. -/
theorem getElem?_swap (hi : i < entries.size) (hj : j < entries.size) (k : Nat) :
    (entries.swapIfInBounds i j)[k]? = entries[Equiv.swap i j k]? := by
  rw [Array.swapIfInBounds_def, dif_pos hi, dif_pos hj, Array.getElem?_swap, Equiv.swap_apply_def]
  by_cases hkj : j = k
  · subst hkj
    by_cases hki : j = i
    · subst hki
      simp
    · simp [hki, hi]
  · by_cases hki : i = k
    · subst hki
      simp [hkj, hj]
    · simp [hkj, hki, eq_comm]

theorem isAhead_swap (hi : i < entries.size) (hj : j < entries.size) (k l : Nat) :
    isAhead ahead (entries.swapIfInBounds i j) k l =
      isAhead ahead entries (Equiv.swap i j k) (Equiv.swap i j l) :=
  isAhead_congr (getElem?_swap hi hj k) (getElem?_swap hi hj l)

theorem swap_perm (hi : i < entries.size) (hj : j < entries.size) :
    (entries.swapIfInBounds i j).toList.Perm entries.toList := by
  rw [Array.swapIfInBounds_def, dif_pos hi, dif_pos hj]
  exact Array.perm_iff_toList_perm.mp (Array.swap_perm hi hj)

/-! ### Orders -/

/-- No entry is ahead of its parent. -/
def OrderedEntries (ahead : α → α → Bool) (entries : Array α) : Prop :=
  ∀ i ≠ 0, isAhead ahead entries i (parent i) = false

/-- The entry at a position is on its way: no other one is ahead of its parent, and those below
are not ahead of the one above. -/
structure OrderedBut (ahead : α → α → Bool) (entries : Array α) (i : Nat) : Prop where
  rest : ∀ j ≠ 0, j ≠ i → parent j ≠ i → isAhead ahead entries j (parent j) = false
  across : i ≠ 0 → ∀ j ≠ 0, parent j = i → isAhead ahead entries j (parent i) = false

/-- An entry that is where it belongs. -/
theorem OrderedBut.ordered (h : OrderedBut ahead entries i)
    (habove : i ≠ 0 → isAhead ahead entries i (parent i) = false)
    (hbelow : ∀ j ≠ 0, parent j = i → isAhead ahead entries j i = false) :
    OrderedEntries ahead entries := by
  intro j hj
  by_cases hji : j = i
  · subst hji
    exact habove hj
  · by_cases hpar : parent j = i
    · rw [hpar]
      exact hbelow j hj hpar
    · exact h.rest j hj hji hpar

/-- The root is an entry that no other one is ahead of. -/
theorem OrderedEntries.root (hA : Ranks ahead) (h : OrderedEntries ahead entries) (hi : i ≠ 0) :
    isAhead ahead entries i 0 = false := by
  induction i using Nat.strongRecOn with
  | ind i ih =>
    by_cases hpar : parent i = 0
    · exact hpar ▸ h i hi
    · by_cases hlt : i < entries.size
      · have hup := ih (parent i) (parent_lt hi) hpar
        exact isAhead_trans hA (Nat.lt_trans (parent_lt hi) hlt) (h i hi) hup
      · exact isAhead_of_size_le (Nat.not_lt.mp hlt)

/-! ### Moving an entry -/

/-- An entry that is ahead of its parent takes its place. -/
theorem OrderedBut.up (hA : Ranks ahead) (h : OrderedBut ahead entries i) (hi : i < entries.size)
    (hne : i ≠ 0) (hahead : isAhead ahead entries i (parent i) = true) :
    OrderedBut ahead (entries.swapIfInBounds i (parent i)) (parent i) ∧
      ∀ j ≠ 0, parent j = parent i →
        isAhead ahead (entries.swapIfInBounds i (parent i)) j (parent i) = false := by
  have hlt := parent_lt hne
  have hp : parent i < entries.size := Nat.lt_trans hlt hi
  have hbehind := isAhead_asymm hA hahead
  -- the other child of the parent is not ahead of it
  have hsibling : ∀ j ≠ 0, j ≠ i → parent j = parent i →
      isAhead ahead entries j (parent i) = false := by
    intro j hj hji hpar
    exact hpar ▸ h.rest j hj hji (by omega)
  refine ⟨⟨fun j hj hjp hpar => ?_, fun hp0 j hj hpar => ?_⟩, fun j hj hpar => ?_⟩
  · have hji : j ≠ i := by
      rintro rfl
      exact hpar rfl
    rw [isAhead_swap hi hp, Equiv.swap_apply_of_ne_of_ne hji hjp]
    by_cases hpari : parent j = i
    · rw [hpari, Equiv.swap_apply_left]
      exact h.across hne j hj hpari
    · rw [Equiv.swap_apply_of_ne_of_ne hpari hpar]
      exact h.rest j hj hji hpari
  · have hlt' := parent_lt hp0
    have hup := h.rest (parent i) hp0 (by omega) (by omega)
    rw [isAhead_swap hi hp,
      Equiv.swap_apply_of_ne_of_ne (show parent (parent i) ≠ i by omega) (by omega)]
    by_cases hji : j = i
    · rw [hji, Equiv.swap_apply_left]
      exact hup
    · have hlt'' := parent_lt hj
      rw [Equiv.swap_apply_of_ne_of_ne hji (by omega)]
      exact isAhead_trans hA hp (hsibling j hj hji hpar) hup
  · rw [isAhead_swap hi hp, Equiv.swap_apply_right]
    by_cases hji : j = i
    · rw [hji, Equiv.swap_apply_left]
      exact hbehind
    · have hlt'' := parent_lt hj
      rw [Equiv.swap_apply_of_ne_of_ne hji (by omega)]
      exact isAhead_trans hA hp (hsibling j hj hji hpar) hbehind

/-- **Rising restores the order.** -/
theorem rise_ordered (hA : Ranks ahead) (h : OrderedBut ahead entries i) (hi : i < entries.size)
    (hbelow : ∀ j ≠ 0, parent j = i → isAhead ahead entries j i = false) :
    OrderedEntries ahead (rise ahead entries i) := by
  fun_induction rise ahead entries i with
  | case1 entries => exact h.ordered (fun hne => absurd rfl hne) hbelow
  | case2 entries i hne hahead hlt ih =>
    obtain ⟨hup, hbelow'⟩ := h.up hA hi hne hahead
    refine ih hup ?_ hbelow'
    rw [Array.size_swapIfInBounds]
    exact Nat.lt_trans hlt hi
  | case3 entries i hne hbehind =>
    exact h.ordered (fun _ => Bool.eq_false_iff.mpr hbehind) hbelow

theorem rise_perm (hi : i < entries.size) : (rise ahead entries i).toList.Perm entries.toList := by
  fun_induction rise ahead entries i with
  | case1 => exact .refl _
  | case2 entries i hne hahead hlt ih =>
    have hp := Nat.lt_trans hlt hi
    exact (ih (by rwa [Array.size_swapIfInBounds])).trans (swap_perm hi hp)
  | case3 => exact .refl _

/-- The child that rises is a child, and the other one is not ahead of it. -/
theorem risingChild?_eq_some (hA : Ranks ahead) (h : risingChild? ahead entries i = some c) :
    c ≠ 0 ∧ parent c = i ∧
      ∀ j ≠ 0, parent j = i → j ≠ c → isAhead ahead entries j c = false := by
  have hchild : ∀ j ≠ 0, parent j = i → j = firstChild i ∨ j = firstChild i + 1 := by
    intro j hj hpar
    rw [parent] at hpar
    rw [firstChild]
    omega
  have hfirst : parent (firstChild i) = i ∧ parent (firstChild i + 1) = i := by
    rw [parent, parent, firstChild]
    omega
  have hpos : firstChild i ≠ 0 := Nat.succ_ne_zero _
  rw [risingChild?] at h
  split at h
  · split at h
    · rename_i hahead
      cases h
      refine ⟨hpos, hfirst.1, fun j hj hpar hne => ?_⟩
      rw [(hchild j hj hpar).resolve_left hne]
      exact isAhead_asymm hA hahead
    · rename_i hbehind
      cases h
      refine ⟨Nat.succ_ne_zero _, hfirst.2, fun j hj hpar hne => ?_⟩
      rw [(hchild j hj hpar).resolve_right hne]
      exact Bool.eq_false_iff.mpr hbehind
  · split at h
    · rename_i hsecond _
      cases h
      refine ⟨hpos, hfirst.1, fun j hj hpar hne => isAhead_of_size_le ?_⟩
      rw [(hchild j hj hpar).resolve_left hne]
      exact Nat.not_lt.mp hsecond
    · cases h

theorem risingChild?_eq_none (h : risingChild? ahead entries i = none) (hj : j ≠ 0)
    (hpar : parent j = i) : entries.size ≤ j := by
  rw [risingChild?] at h
  split at h
  · cases h
  · split at h
    · cases h
    · rw [firstChild] at *
      rw [parent] at hpar
      omega

/-- An entry goes down, and the child that rises takes its place. -/
theorem OrderedBut.down (hA : Ranks ahead) (h : OrderedBut ahead entries i)
    (hc : risingChild? ahead entries i = some c) :
    OrderedBut ahead (entries.swapIfInBounds i c) c := by
  obtain ⟨hic, hcs⟩ := lt_of_risingChild? ahead hc
  obtain ⟨hne, hpar, hfirst⟩ := risingChild?_eq_some hA hc
  have hi : i < entries.size := Nat.lt_trans hic hcs
  refine ⟨fun j hj hjc hparj => ?_, fun _ j hj hparj => ?_⟩
  · rw [isAhead_swap hi hcs]
    by_cases hji : j = i
    · subst hji
      have hlt := parent_lt hj
      rw [Equiv.swap_apply_left, Equiv.swap_apply_of_ne_of_ne (show parent j ≠ j by omega) hparj]
      exact h.across hj c hne hpar
    · rw [Equiv.swap_apply_of_ne_of_ne hji hjc]
      by_cases hpari : parent j = i
      · rw [hpari, Equiv.swap_apply_left]
        exact hfirst j hj hpari hjc
      · rw [Equiv.swap_apply_of_ne_of_ne hpari hparj]
        exact h.rest j hj hji hpari
  · have hlt := parent_lt hj
    rw [isAhead_swap hi hcs, hpar, Equiv.swap_apply_left,
      Equiv.swap_apply_of_ne_of_ne (show j ≠ i by omega) (by omega)]
    exact hparj ▸ h.rest j hj (by omega) (by omega)

/-- **Sinking keeps the order** of the entries but the one that sinks. -/
theorem sink_ordered (hA : Ranks ahead) (h : OrderedBut ahead entries i) :
    OrderedBut ahead (sink ahead entries i).1 (sink ahead entries i).2 := by
  fun_induction sink ahead entries i with
  | case1 entries i c hc hlt ih => exact ih (h.down hA hc)
  | case2 entries i hnone => exact h

/-- An entry sinks to a leaf. -/
theorem sink_leaf (hi : i < entries.size) :
    (sink ahead entries i).2 < (sink ahead entries i).1.size ∧
      ∀ j ≠ 0, parent j = (sink ahead entries i).2 → (sink ahead entries i).1.size ≤ j := by
  fun_induction sink ahead entries i with
  | case1 entries i c hc hlt ih =>
    refine ih ?_
    rw [Array.size_swapIfInBounds]
    exact hlt.2
  | case2 entries i hnone => exact ⟨hi, fun j hj hpar => risingChild?_eq_none hnone hj hpar⟩

theorem sink_perm (hi : i < entries.size) :
    (sink ahead entries i).1.toList.Perm entries.toList := by
  fun_induction sink ahead entries i with
  | case1 entries i c hc hlt ih =>
    exact (ih (by rw [Array.size_swapIfInBounds]; exact hlt.2)).trans (swap_perm hi hlt.2)
  | case2 entries i hnone => exact .refl _

/-! ### Adding and taking entries -/

/-- A heap whose entries are in order. -/
def Ordered (ahead : α → α → Bool) (heap : Heap α) : Prop := OrderedEntries ahead heap.entries

/-- The entries of a heap, in the order of their positions. -/
def toList (heap : Heap α) : List α := heap.entries.toList

theorem ordered_empty : Ordered ahead (empty : Heap α) :=
  fun _ _ => isAhead_of_size_le (Nat.zero_le _)

theorem push_perm (heap : Heap α) (a : α) : (heap.push ahead a).toList.Perm (a :: heap.toList) := by
  have hlt : heap.entries.size < (heap.entries.push a).size := by
    rw [Array.size_push]
    exact Nat.lt_succ_self _
  refine (rise_perm hlt).trans ?_
  rw [Array.toList_push]
  exact List.perm_append_singleton _ _

/-- **Adding an entry keeps the order.** -/
theorem Ordered.push (hA : Ranks ahead) (h : heap.Ordered ahead) (a : α) :
    (heap.push ahead a).Ordered ahead := by
  have hsize : (heap.entries.push a).size = heap.entries.size + 1 := Array.size_push ..
  have hold : ∀ j < heap.entries.size, (heap.entries.push a)[j]? = heap.entries[j]? := by
    intro j hj
    rw [Array.getElem?_push_lt hj, Array.getElem?_eq_getElem hj]
  -- the entry is added behind the last one, so there is nothing below it
  have hout : ∀ j ≠ 0, parent j = heap.entries.size → (heap.entries.push a).size ≤ j := by
    intro j hj hpar
    have := parent_lt hj
    omega
  refine rise_ordered hA ⟨fun j hj hji _ => ?_, fun _ j hj hpar => ?_⟩ (by omega)
    fun j hj hpar => isAhead_of_size_le (hout j hj hpar)
  · by_cases hlt : j < heap.entries.size
    · rw [isAhead_congr (hold j hlt) (hold _ (Nat.lt_trans (parent_lt hj) hlt))]
      exact h j hj
    · exact isAhead_of_size_le (by omega)
  · exact isAhead_of_size_le (hout j hj hpar)

/-- Where the last entry takes the place of the root, the others are left. -/
theorem replaced_perm {root last : α} {rest : List α} (hentries : entries.toList = root :: rest)
    (hlast : entries.back? = some last) (hne : entries.pop ≠ #[]) :
    (entries.pop.setIfInBounds 0 last).toList.Perm rest := by
  have hrest : rest ≠ [] := by
    rintro rfl
    refine hne (Array.toList_inj.mp ?_)
    rw [Array.toList_pop, hentries]
    rfl
  have hlast' : rest.getLast hrest = last := by
    rw [← Array.getLast?_toList, hentries, List.getLast?_cons_of_ne_nil hrest,
      List.getLast?_eq_some_getLast hrest] at hlast
    exact Option.some.inj hlast
  rw [Array.toList_setIfInBounds, Array.toList_pop, hentries, List.dropLast_cons_of_ne_nil hrest,
    List.set_cons_zero]
  conv_rhs => rw [← List.dropLast_concat_getLast hrest, hlast']
  exact (List.perm_append_singleton _ _).symm

/-- There is an entry to take unless there is none at all. -/
theorem pop?_eq_none (h : heap.pop? ahead = none) : heap.toList = [] := by
  cases hentries : heap.entries.toList with
  | nil => exact hentries
  | cons root rest =>
    have hroot : heap.entries[0]? = some root := by
      rw [← Array.getElem?_toList, hentries]
      rfl
    have hlast : heap.entries.back? = some ((root :: rest).getLast (List.cons_ne_nil _ _)) := by
      rw [← Array.getLast?_toList, hentries, List.getLast?_eq_some_getLast]
    rw [pop?, hroot, hlast] at h
    dsimp only at h
    split at h <;> cases h

/-- What taking an entry does: the last one takes the place of the root, sinks and rises. -/
theorem pop?_cases {rest : Heap α} (h : heap.pop? ahead = some (a, rest)) :
    ∃ l, heap.entries.toList = a :: l ∧ (l = [] ∧ rest.entries = #[] ∨
      ∃ last, heap.entries.back? = some last ∧ heap.entries.pop ≠ #[] ∧
        rest.entries = rise ahead (sink ahead (heap.entries.pop.setIfInBounds 0 last) 0).1
          (sink ahead (heap.entries.pop.setIfInBounds 0 last) 0).2) := by
  rw [pop?] at h
  split at h
  · rename_i root last hroot hlast
    obtain ⟨l, hl⟩ : ∃ l, heap.entries.toList = root :: l := by
      rw [← Array.getElem?_toList] at hroot
      cases hentries : heap.entries.toList with
      | nil =>
        rw [hentries] at hroot
        cases hroot
      | cons r l =>
        rw [hentries] at hroot
        cases hroot
        exact ⟨l, rfl⟩
    dsimp only at h
    split at h
    · rename_i hempty
      cases h
      have hpop : heap.entries.pop = #[] := Array.isEmpty_iff.mp hempty
      refine ⟨l, hl, .inl ⟨?_, hpop⟩⟩
      have hlist := congrArg Array.toList hpop
      rw [Array.toList_pop, hl] at hlist
      cases l with
      | nil => rfl
      | cons b l => cases hlist
    · rename_i hempty
      cases h
      exact ⟨l, hl, .inr ⟨last, hlast, mt Array.isEmpty_iff.mpr hempty, rfl⟩⟩
  · cases h

theorem size_replaced_pos (last : α) (hne : entries.pop ≠ #[]) :
    0 < (entries.pop.setIfInBounds 0 last).size := by
  rw [Array.size_setIfInBounds]
  exact Array.size_pos_iff.mpr hne

/-- **Taking an entry leaves all others.** -/
theorem pop?_perm {rest : Heap α} (h : heap.pop? ahead = some (a, rest)) :
    heap.toList.Perm (a :: rest.toList) := by
  obtain ⟨l, hl, ⟨rfl, hrest⟩ | ⟨last, hlast, hne, hrest⟩⟩ := pop?_cases h
  · rw [toList, toList, hl, hrest]
  · have hpos := size_replaced_pos last hne
    rw [toList, toList, hl, hrest]
    refine (((rise_perm (sink_leaf hpos).1).trans (sink_perm hpos)).trans ?_).symm.cons a
    exact replaced_perm hl hlast hne

/-- **Taking an entry keeps the order.** -/
theorem Ordered.pop? (hA : Ranks ahead) (ho : heap.Ordered ahead) {rest : Heap α}
    (h : heap.pop? ahead = some (a, rest)) : rest.Ordered ahead := by
  obtain ⟨l, hl, ⟨-, hrest⟩ | ⟨last, hlast, hne, hrest⟩⟩ := pop?_cases h
  · rw [Ordered, hrest]
    exact fun _ _ => isAhead_of_size_le (Nat.zero_le _)
  · have hold : ∀ j ≠ 0, j < heap.entries.pop.size →
        (heap.entries.pop.setIfInBounds 0 last)[j]? = heap.entries[j]? := by
      intro j hj hlt
      rw [Array.getElem?_setIfInBounds_ne (Ne.symm hj), Array.getElem?_pop, if_pos]
      rwa [Array.size_pop] at hlt
    have hbut : OrderedBut ahead (heap.entries.pop.setIfInBounds 0 last) 0 := by
      refine ⟨fun j hj _ hpar => ?_, fun h => absurd rfl h⟩
      by_cases hlt : j < heap.entries.pop.size
      · rw [isAhead_congr (hold j hj hlt) (hold _ hpar (Nat.lt_trans (parent_lt hj) hlt))]
        exact ho j hj
      · refine isAhead_of_size_le ?_
        rw [Array.size_setIfInBounds]
        exact Nat.not_lt.mp hlt
    have hpos := size_replaced_pos last hne
    rw [Ordered, hrest]
    exact rise_ordered hA (sink_ordered hA hbut) (sink_leaf hpos).1 fun j hj hpar =>
      isAhead_of_size_le ((sink_leaf hpos).2 j hj hpar)

theorem top?_of_pop? {rest : Heap α} (h : heap.pop? ahead = some (a, rest)) :
    heap.top? = some a := by
  obtain ⟨l, hl, -⟩ := pop?_cases h
  rw [top?, ← Array.getElem?_toList, hl]
  rfl

theorem top?_eq_none_iff : heap.top? = none ↔ heap.toList = [] := by
  rw [top?, ← Array.getElem?_toList, toList]
  cases heap.entries.toList <;> simp

/-- **No entry is ahead of the one at the root.** -/
theorem Ordered.top_first (hA : Ranks ahead) (ho : heap.Ordered ahead) (ha : heap.top? = some a)
    (hb : b ∈ heap.toList) : ahead b a = false := by
  obtain ⟨j, hj⟩ := List.mem_iff_getElem?.mp hb
  rw [toList, Array.getElem?_toList] at hj
  by_cases hj0 : j = 0
  · subst hj0
    obtain rfl : a = b := Option.some.inj (ha.symm.trans hj)
    exact hA.irrefl a
  · have hroot := OrderedEntries.root hA ho hj0
    rwa [isAhead_of_getElem? hj ha] at hroot

end Heap
end EventArchive
