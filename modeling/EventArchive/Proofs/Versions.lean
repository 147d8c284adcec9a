import EventArchive.Proofs.DeliveryOrder

/-! # The order of versions

Of two versions of an event the older one gives way: the one of the earlier time
or, at the same time, the one with the greater identifier.  Events with different
identifiers are never of the same age, so among some events there is at most one
newest (`Event.IsNewest.unique`), and which one it is does not depend on their
order.
-/
namespace EventArchive

namespace Event
variable {a b c : Event} {es : List Event}

theorem isOlderThan_trans (hab : a.isOlderThan b = true) (hbc : b.isOlderThan c = true) :
    a.isOlderThan c = true :=
  isOlder_trans hab hbc

theorem not_isOlderThan_self (a : Event) : ¬ a.isOlderThan a = true :=
  not_isOlder_self a.createdAt a.id

/-- Of two events with different identifiers one is older. -/
theorem isOlderThan_total (hid : a.id ≠ b.id) (hab : a.isOlderThan b = false) :
    b.isOlderThan a = true :=
  (isOlder_or_eq hab).resolve_right fun h => hid h.2

/-- An event is **the newest** of some: all others are older. -/
def IsNewest (a : Event) (es : List Event) : Prop :=
  a ∈ es ∧ ∀ b ∈ es, b ≠ a → b.isOlderThan a = true

instance (a : Event) (es : List Event) : Decidable (a.IsNewest es) :=
  inferInstanceAs (Decidable (a ∈ es ∧ ∀ b ∈ es, b ≠ a → b.isOlderThan a = true))

theorem IsNewest.unique (ha : a.IsNewest es) (hb : b.IsNewest es) : a = b := by
  by_contra hne
  have hab := hb.2 a ha.1 hne
  have hba := ha.2 b hb.1 (Ne.symm hne)
  exact not_isOlderThan_self a (isOlderThan_trans hab hba)

theorem IsNewest.perm {es' : List Event} (ha : a.IsNewest es) (hperm : es'.Perm es) :
    a.IsNewest es' :=
  ⟨hperm.mem_iff.mpr ha.1, fun b hb => ha.2 b (hperm.mem_iff.mp hb)⟩

theorem IsNewest.singleton (a : Event) : a.IsNewest [a] :=
  ⟨List.mem_cons_self, fun _ hb hne => absurd (List.mem_singleton.mp hb) hne⟩

/-- An event that was there already changes nothing. -/
theorem IsNewest.append_of_mem (ha : a.IsNewest es) (hb : b ∈ es) : a.IsNewest (es ++ [b]) := by
  refine ⟨List.mem_append_left _ ha.1, fun c hc => ?_⟩
  rcases List.mem_append.mp hc with hc | hc
  · exact ha.2 c hc
  · exact ha.2 c (List.mem_singleton.mp hc ▸ hb)

/-- An older event changes nothing. -/
theorem IsNewest.append_of_isOlderThan (ha : a.IsNewest es) (hb : b.isOlderThan a = true) :
    a.IsNewest (es ++ [b]) := by
  refine ⟨List.mem_append_left _ ha.1, fun c hc hne => ?_⟩
  rcases List.mem_append.mp hc with hc | hc
  · exact ha.2 c hc hne
  · rwa [List.mem_singleton.mp hc]

/-- An event is the newest if the one that was before is older. -/
theorem IsNewest.append (ha : a.IsNewest es) (hab : a.isOlderThan b = true) :
    b.IsNewest (es ++ [b]) := by
  refine ⟨List.mem_append_right _ List.mem_cons_self, fun c hc hne => ?_⟩
  rcases List.mem_append.mp hc with hc | hc
  · by_cases hca : c = a
    · rwa [hca]
    · exact isOlderThan_trans (ha.2 c hc hca) hab
  · exact absurd (List.mem_singleton.mp hc) hne

/-- Whether an event is a version that an author published of a replaceable kind. -/
def IsVersion (author : PublicKey) (kind : Kind) (e : Event) : Prop :=
  e.pubkey = author ∧ e.kind = kind

instance (author : PublicKey) (kind : Kind) (e : Event) : Decidable (e.IsVersion author kind) :=
  inferInstanceAs (Decidable (e.pubkey = author ∧ e.kind = kind))

end Event
end EventArchive
