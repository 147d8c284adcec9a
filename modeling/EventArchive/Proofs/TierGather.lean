import EventArchive.Proofs.TierOrder

/-! # Everything is gathered

A demoted record that was found by its identifier shows no time, so its lookup
may bring an event that belongs elsewhere in the order.  What a merge delivers
does not depend on that: if it may deliver everything that its streams
contribute, it does, and each event once (`TierMerge.run_gathers`).
-/
namespace EventArchive.TierMerge
variable {f : Filter} {lookup : EventId → Lookup} {m m' : TierMerge} {order : Nat → Nat}
  {limit : Nat} {primary secondary : List Record}

/-- Streams of which nothing is asked but that the secondary one sends whole records. -/
theorem Coherent.of_whole (hsecondary : ∀ r ∈ secondary, r.isStub = false)
    (hid : Identified ((primary ++ secondary).filterMap (offered? f lookup))) :
    Coherent (fun _ _ => True) f lookup primary secondary where
  secondary_whole := hsecondary
  resolves _ _ _ _ _ _ _ := trivial
  identified := hid

/-- **A merge delivers all that its streams contribute**, each event once, if it may. -/
theorem run_gathers (hsecondary : ∀ r ∈ secondary, r.isStub = false)
    (hid : Identified ((primary ++ secondary).filterMap (offered? f lookup)))
    (order : Nat → Nat) (hlimit : (offers f lookup primary secondary).length ≤ limit) :
    (run f lookup order limit primary secondary).records =
        (run f lookup order limit primary secondary).events.map .full ∧
      (run f lookup order limit primary secondary).events.Perm
        (offers f lookup primary secondary) := by
  have hany : Agrees Rank.precedes fun _ _ => True := ⟨fun _ _ => trivial, fun _ => trivial⟩
  have hprimary : primary.Pairwise fun _ _ => True :=
    List.pairwise_of_forall fun _ _ => trivial
  have hsecondary' : secondary.Pairwise fun _ _ => True :=
    List.pairwise_of_forall fun _ _ => trivial
  have h := Coherent.of_whole hsecondary hid
  obtain ⟨-, hprogress, -⟩ := h.run_progress hany hprimary hsecondary' order limit
  have hfirst := h.run_firstOf hany hprimary hsecondary' order limit
  refine ⟨hprogress.records_eq, ?_⟩
  apply (List.subperm_of_subset hfirst.nodup hfirst.sound).perm_of_length_le
  rw [hfirst.length, Nat.min_eq_right hlimit]

/-- A merge of streams that send nothing delivers nothing. -/
theorem run_nil (f : Filter) (lookup : EventId → Lookup) (order : Nat → Nat) (limit : Nat) :
    (run f lookup order limit [] []).records = [] := by
  have hsecondary : ∀ r ∈ ([] : List Record), r.isStub = false := nofun
  have hid : Identified (([] ++ []).filterMap (offered? f lookup)) := nofun
  have hlimit : (offers f lookup [] []).length ≤ limit := Nat.zero_le limit
  obtain ⟨hrun, hperm⟩ := run_gathers hsecondary hid order hlimit
  have hnone : offers f lookup [] [] = [] := rfl
  rw [hnone] at hperm
  rw [hrun, List.perm_nil.mp hperm, List.map_nil]

/-- Streams that contribute one event contribute it once. -/
theorem offers_eq_singleton {e : Event}
    (hall : ∀ r ∈ primary ++ secondary, ∀ e', offered? f lookup r = some e' → e' = e)
    (hsome : ∃ r ∈ primary ++ secondary, offered? f lookup r = some e) :
    offers f lookup primary secondary = [e] := by
  refine List.perm_singleton.mp ((List.perm_ext_iff_of_nodup (nodup_distinct _)
    (List.nodup_singleton e)).mpr fun e' => ?_)
  rw [mem_distinct, List.mem_filterMap, List.mem_singleton]
  constructor
  · rintro ⟨r, hr, he'⟩
    exact hall r hr e' he'
  · rintro rfl
    exact hsome

/-- **A merge of streams that contribute one event**, which the secondary one sends whole, delivers
that event alone. -/
theorem run_of_one {e : Event}
    (hall : ∀ r ∈ primary, ∀ e', offered? f lookup r = some e' → e' = e) (order : Nat → Nat)
    (hlimit : 0 < limit) : (run f lookup order limit primary [.full e]).records = [.full e] := by
  have hall : ∀ r ∈ primary ++ [.full e], ∀ e', offered? f lookup r = some e' → e' = e := by
    intro r hr e' he'
    rcases List.mem_append.mp hr with hr | hr
    · exact hall r hr e' he'
    · rw [List.mem_singleton.mp hr] at he'
      exact (Option.some.inj he').symm
  have hoffers : offers f lookup primary [.full e] = [e] :=
    offers_eq_singleton hall ⟨.full e, List.mem_append_right _ List.mem_cons_self, rfl⟩
  have hsecondary : ∀ r ∈ [Record.full e], r.isStub = false := by
    intro r hr
    rw [List.mem_singleton.mp hr]
    rfl
  have hid : Identified ((primary ++ [Record.full e]).filterMap (offered? f lookup)) := by
    intro a ha b hb _
    obtain ⟨r, hr, har⟩ := List.mem_filterMap.mp ha
    obtain ⟨r', hr', hbr⟩ := List.mem_filterMap.mp hb
    rw [hall r hr a har, hall r' hr' b hbr]
  have hlength : (offers f lookup primary [.full e]).length ≤ limit := by
    rw [hoffers]
    exact hlimit
  obtain ⟨hrun, hperm⟩ := run_gathers hsecondary hid order hlength
  rw [hoffers] at hperm
  rw [hrun, List.perm_singleton.mp hperm]
  rfl

/-- **A merge of two streams of one event each** delivers the one that comes first, and the other
one if it may. -/
theorem run_of_two {a b : Event} (hid : a.id ≠ b.id)
    (hfirst : (Rank.of (.full a)).precedes (Rank.of (.full b)) = true) (order : Nat → Nat)
    (hlimit : 0 < limit) : (run f lookup order limit [.full b] [.full a]).records = [.full a] ∨
      (run f lookup order limit [.full b] [.full a]).records = [.full a, .full b] := by
  have hne : a ≠ b := fun h => hid (congrArg Event.id h)
  let R : Rank → Rank → Prop := fun r r' => r'.precedes r = false
  have h : Coherent R f lookup [.full b] [.full a] := by
    refine ⟨?_, ?_, ?_⟩
    · intro r hr
      rw [List.mem_singleton.mp hr]
      rfl
    · intro r hr hstub
      rw [List.mem_singleton.mp hr] at hstub
      cases hstub
    · show Identified [b, a]
      intro x hx y hy hxy
      simp only [List.mem_cons, List.not_mem_nil, or_false] at hx hy
      rcases hx with rfl | rfl <;> rcases hy with rfl | rfl
      · rfl
      · exact absurd hxy.symm hid
      · exact absurd hxy hid
      · rfl
  have hoffers : ∀ e, e ∈ offers f lookup [.full b] [.full a] ↔ e = b ∨ e = a := by
    intro e
    rw [offers, mem_distinct]
    show e ∈ [b, a] ↔ _
    simp
  have hsorted := List.pairwise_singleton fun r r' => R (Rank.of r) (Rank.of r')
  obtain ⟨-, hprogress, -⟩ := h.run_progress Rank.ranks.agrees (hsorted _) (hsorted _) order limit
  have hfirsts := h.run_firstOf Rank.ranks.agrees (hsorted _) (hsorted _) order limit
  rw [hprogress.records_eq]
  generalize (run f lookup order limit [.full b] [.full a]).events = delivered at hfirsts
  -- the other event never comes in front of the first one
  have hfront : ¬ R (Rank.of (.full b)) (Rank.of (.full a)) := by
    intro hR
    rw [show (Rank.of (.full a)).precedes (Rank.of (.full b)) = false from hR] at hfirst
    cases hfirst
  have hmem : a ∈ delivered := by
    by_contra hout
    have ha := (hoffers a).mpr (.inr rfl)
    have hpos : 0 < delivered.length := by
      rw [hfirsts.length]
      exact Nat.lt_min.mpr ⟨hlimit, List.length_pos_of_mem ha⟩
    obtain ⟨d, hd⟩ := List.exists_mem_of_length_pos hpos
    have hR := hfirsts.missing a ha hout d hd
    rcases (hoffers d).mp (hfirsts.sound d hd) with rfl | rfl
    · exact hfront hR
    · exact hout hd
  rcases delivered with _ | ⟨d, rest⟩
  · cases hmem
  obtain rfl : d = a := by
    rcases (hoffers d).mp (hfirsts.sound d List.mem_cons_self) with rfl | rfl
    · have hin : a ∈ rest := (List.mem_cons.mp hmem).resolve_left hne
      exact absurd ((List.pairwise_cons.mp hfirsts.sorted).1 a hin) hfront
    · rfl
  obtain ⟨hnot, hnodup⟩ := List.nodup_cons.mp hfirsts.nodup
  have hrest : ∀ e ∈ rest, e = b := by
    intro e he
    rcases (hoffers e).mp (hfirsts.sound e (List.mem_cons_of_mem _ he)) with heq | rfl
    · exact heq
    · exact absurd he hnot
  rcases rest with _ | ⟨x, _ | ⟨y, rest⟩⟩
  · exact .inl rfl
  · exact .inr (by rw [hrest x List.mem_cons_self]; rfl)
  · -- the other event would be delivered twice
    have hx := hrest x List.mem_cons_self
    have hy := hrest y (List.mem_cons_of_mem _ List.mem_cons_self)
    exact absurd (hx.trans hy.symm ▸ List.mem_cons_self) (List.nodup_cons.mp hnodup).1

end EventArchive.TierMerge
