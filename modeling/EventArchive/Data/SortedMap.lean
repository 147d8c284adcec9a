/-!
# Sorted maps

A finite map kept as the list of its entries in strictly increasing key order. The order is part of
the type, so two maps with the same entries are equal, a range of keys is a contiguous part of the
list, and walking the list backwards is walking the keys from the largest to the smallest.
-/
namespace EventArchive

/-- Entries in strictly increasing key order: at most one value for each key. -/
structure SortedMap (κ ν : Type) [Ord κ] where
  entries : List (κ × ν)
  sorted : entries.Pairwise (fun a b => compare a.1 b.1 = .lt)
  deriving DecidableEq

namespace SortedMap
variable {κ ν : Type} [Ord κ]

/-! ### Lists in key order -/

/-- Put a value under a key of a list in key order, replacing the value that was there. -/
def insertEntry (k : κ) (v : ν) : List (κ × ν) → List (κ × ν)
  | [] => [(k, v)]
  | (k', v') :: rest =>
    match compare k k' with
    | .lt => (k, v) :: (k', v') :: rest
    | .eq => (k, v) :: rest
    | .gt => (k', v') :: insertEntry k v rest

/-- The value under a key of a list in key order; the search stops at the first larger key. -/
def findEntry (k : κ) : List (κ × ν) → Option ν
  | [] => none
  | (k', v') :: rest =>
    match compare k k' with
    | .lt => none
    | .eq => some v'
    | .gt => findEntry k rest

theorem mem_insertEntry {k : κ} {v : ν} {l : List (κ × ν)} {e : κ × ν}
    (h : e ∈ insertEntry k v l) : e = (k, v) ∨ e ∈ l := by
  induction l with
  | nil => simpa [insertEntry] using h
  | cons head rest ih =>
    obtain ⟨k', v'⟩ := head
    rw [insertEntry] at h
    split at h
    · simpa using h
    · rcases List.mem_cons.mp h with h | h
      · exact .inl h
      · exact .inr (List.mem_cons_of_mem _ h)
    · rcases List.mem_cons.mp h with h | h
      · exact .inr (h ▸ List.mem_cons_self)
      · exact (ih h).imp_right (List.mem_cons_of_mem _)

theorem insertEntry_pairwise [Std.TransOrd κ] [Std.LawfulEqOrd κ] (k : κ) (v : ν)
    {l : List (κ × ν)} (hl : l.Pairwise (fun a b => compare a.1 b.1 = .lt)) :
    (insertEntry k v l).Pairwise (fun a b => compare a.1 b.1 = .lt) := by
  induction l with
  | nil => simp [insertEntry]
  | cons head rest ih =>
    obtain ⟨k', v'⟩ := head
    obtain ⟨hhead, hrest⟩ := List.pairwise_cons.mp hl
    rw [insertEntry]
    split
    · rename_i hlt
      refine List.pairwise_cons.mpr ⟨fun e he => ?_, hl⟩
      rcases List.mem_cons.mp he with he | he
      · subst he
        exact hlt
      · exact Std.TransCmp.lt_trans hlt (hhead e he)
    · rename_i heq
      obtain rfl := Std.LawfulEqCmp.eq_of_compare heq
      exact List.pairwise_cons.mpr ⟨hhead, hrest⟩
    · rename_i hgt
      refine List.pairwise_cons.mpr ⟨fun e he => ?_, ih hrest⟩
      rcases mem_insertEntry he with he | he
      · subst he
        exact Std.OrientedCmp.lt_of_gt hgt
      · exact hhead e he

/-! ### Operations -/

/-- The map without entries. -/
def empty : SortedMap κ ν := ⟨[], List.Pairwise.nil⟩

instance : EmptyCollection (SortedMap κ ν) := ⟨empty⟩
instance : Inhabited (SortedMap κ ν) := ⟨empty⟩

/-- The value under a key. -/
def get? (m : SortedMap κ ν) (k : κ) : Option ν := findEntry k m.entries

/-- Whether a key has a value. -/
def contains (m : SortedMap κ ν) (k : κ) : Bool := (m.get? k).isSome

/-- Put a value under a key, replacing the value that was there. -/
def insert [Std.TransOrd κ] [Std.LawfulEqOrd κ] (m : SortedMap κ ν) (k : κ) (v : ν) :
    SortedMap κ ν :=
  ⟨insertEntry k v m.entries, insertEntry_pairwise k v m.sorted⟩

/-- The entries whose key and value pass a test. -/
def filter (m : SortedMap κ ν) (p : κ → ν → Bool) : SortedMap κ ν :=
  ⟨m.entries.filter (fun e => p e.1 e.2), m.sorted.filter _⟩

/-- Remove a key; the other entries stay. -/
def erase (m : SortedMap κ ν) (k : κ) : SortedMap κ ν := m.filter fun k' _ => compare k k' != .eq

/-- Remove every key of a list. -/
def eraseAll (m : SortedMap κ ν) (ks : List κ) : SortedMap κ ν := ks.foldl erase m

/-- Put the same value under every key of a list. -/
def insertAll [Std.TransOrd κ] [Std.LawfulEqOrd κ] (m : SortedMap κ ν) (ks : List κ) (v : ν) :
    SortedMap κ ν :=
  ks.foldl (fun m k => m.insert k v) m

/-- The map of a list of entries; of two values under one key the later stays. -/
def ofList [Std.TransOrd κ] [Std.LawfulEqOrd κ] (l : List (κ × ν)) : SortedMap κ ν :=
  l.foldl (fun m e => m.insert e.1 e.2) empty

/-- The keys in increasing order. -/
def keys (m : SortedMap κ ν) : List κ := m.entries.map (·.1)

/-- Number of keys. -/
def size (m : SortedMap κ ν) : Nat := m.entries.length

/-- Whether the map has no key. -/
def isEmpty (m : SortedMap κ ν) : Bool := m.entries.isEmpty

/-- The entries with `lower ≤ key < upper`, in key order. -/
def range (m : SortedMap κ ν) (lower upper : κ) : List (κ × ν) :=
  m.entries.filter fun e => (compare lower e.1).isLE && compare e.1 upper == .lt

/-- The entries with `lower ≤ key ≤ upper`, in key order. -/
def rangeThrough (m : SortedMap κ ν) (lower upper : κ) : List (κ × ν) :=
  m.entries.filter fun e => (compare lower e.1).isLE && (compare e.1 upper).isLE

end SortedMap
end EventArchive
