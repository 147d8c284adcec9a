/-!
# Binary heaps

A queue that gives out an entry that no other entry is ahead of. The entries are kept in an array
that is read as a binary tree: the children of position `i` are at `2 * i + 1` and `2 * i + 2`, and
no entry is ahead of its parent. Entries of which neither is ahead of the other come out in an order
that depends on the shape of the tree.

Taking the root moves the last entry into the hole: the hole first sinks to the bottom, the child
that is ahead rising into its place each time, and then the entry rises from there.
-/
namespace EventArchive

/-- Entries in the order of a binary tree. -/
structure Heap (α : Type) where
  entries : Array α

namespace Heap
variable {α : Type}

/-- The heap without entries. -/
def empty : Heap α := ⟨#[]⟩

/-- The position of the parent. -/
def parent (i : Nat) : Nat := (i - 1) / 2

/-- The position of the first child. -/
def firstChild (i : Nat) : Nat := 2 * i + 1

theorem parent_lt {i : Nat} (h : i ≠ 0) : parent i < i := by
  unfold parent
  omega

section
variable (ahead : α → α → Bool)

/-- Whether the entry at a position is ahead of that at another one. -/
def isAhead (entries : Array α) (i j : Nat) : Bool :=
  match entries[i]?, entries[j]? with
  | some a, some b => ahead a b
  | _, _ => false

/-- Let the entry at a position rise until its parent is no longer behind it. -/
def rise (entries : Array α) (i : Nat) : Array α :=
  if h : i = 0 then entries
  else if isAhead ahead entries i (parent i) then
    have := parent_lt h
    rise (entries.swapIfInBounds i (parent i)) (parent i)
  else entries
termination_by i

/-- The child that rises into a hole above it: the second one unless the first is ahead. -/
def risingChild? (entries : Array α) (i : Nat) : Option Nat :=
  let child := firstChild i
  if child + 1 < entries.size then
    some (if isAhead ahead entries child (child + 1) then child else child + 1)
  else if child < entries.size then some child
  else none

theorem lt_of_risingChild? {entries : Array α} {i c : Nat}
    (h : risingChild? ahead entries i = some c) : i < c ∧ c < entries.size := by
  grind [risingChild?, firstChild]

/-- Let the entry at a position sink to the bottom, and say where it is then. -/
def sink (entries : Array α) (i : Nat) : Array α × Nat :=
  match h : risingChild? ahead entries i with
  | some child =>
    have := lt_of_risingChild? ahead h
    sink (entries.swapIfInBounds i child) child
  | none => (entries, i)
termination_by entries.size - i
decreasing_by simp only [Array.size_swapIfInBounds]; omega

/-- Add an entry. -/
def push (heap : Heap α) (a : α) : Heap α :=
  ⟨rise ahead (heap.entries.push a) heap.entries.size⟩

/-- The entry at the root. -/
def top? (heap : Heap α) : Option α := heap.entries[0]?

/-- Take the entry at the root. -/
def pop? (heap : Heap α) : Option (α × Heap α) :=
  match heap.entries[0]?, heap.entries.back? with
  | some root, some last =>
    let shorter := heap.entries.pop
    if shorter.isEmpty then some (root, ⟨shorter⟩)
    else
      let sunk := sink ahead (shorter.setIfInBounds 0 last) 0
      some (root, ⟨rise ahead sunk.1 sunk.2⟩)
  | _, _ => none

end

/-- Number of entries. -/
def size (heap : Heap α) : Nat := heap.entries.size

end Heap
end EventArchive
