import EventArchive.Proofs.QueryExact

/-! # Records of one time

Records of one time are to be delivered by their identifiers, the smallest first.
A merge compares only what is at the front of its scans, and a scan delivers
records of one time by their serials, the greatest first (`Scan.onePass_ties`).
So they come by identifiers, and a limit keeps the smallest ones, wherever in
each scan what was saved later has the smaller identifier
(`Archive.query_ties_ordered`).  Elsewhere they do not, neither those of one scan
nor those of different ones.
-/
namespace EventArchive

/-- One record is to be delivered before another one: it is newer, or of the same time and of a
smaller identifier. -/
def Record.ComesBefore (a b : Record) : Prop :=
  isOlder b.createdAt b.id a.createdAt a.id = true

instance (a b : Record) : Decidable (a.ComesBefore b) :=
  inferInstanceAs (Decidable (isOlder b.createdAt b.id a.createdAt a.id = true))

namespace Plan

/-- Of two records of one time that one scan finds, the one saved later has the smaller
identifier. -/
def LaterSmaller (p : Plan) (k : Keyspace) (pageSize : Nat) : Prop :=
  ∀ s ∈ p.scans, ∀ x ∈ s.hits k p.residual p.since pageSize,
    ∀ y ∈ s.hits k p.residual p.since pageSize,
      x.createdAt = y.createdAt → y.serial < x.serial → compare x.record.id y.record.id = .lt

instance (p : Plan) (k : Keyspace) (pageSize : Nat) : Decidable (p.LaterSmaller k pageSize) :=
  inferInstanceAs (Decidable (∀ s ∈ p.scans, ∀ x ∈ s.hits k p.residual p.since pageSize,
    ∀ y ∈ s.hits k p.residual p.since pageSize,
      x.createdAt = y.createdAt → y.serial < x.serial → compare x.record.id y.record.id = .lt))

section
variable {p : Plan} {k : Keyspace} {L : Ledger} {pageSize : Nat}
variable (hr : k.Renders L) (hfits : ∀ s h, L s = some h → h.event.Sized)
  (htimes : ∀ s e t, L s = some (.live e t) → 0 ≤ e.createdAt)
  (hscans : ∀ s ∈ p.scans, s.Timed) (hties : p.LaterSmaller k pageSize)
include hr hfits htimes hscans hties

/-- The hits of a scan are in the order of delivery, if those of one time are. -/
theorem hits_ordered {s : Scan} (hs : s ∈ p.scans) :
    (s.hits k p.residual p.since pageSize).Pairwise fun a b => b.precedes a = false := by
  have hsmaller := hties s hs
  rw [Scan.hits_eq_onePass] at hsmaller ⊢
  have hnewest : (s.onePass k p.residual p.since).Pairwise fun a b => b.createdAt ≤ a.createdAt :=
    Scan.onePass_sorted hr hfits htimes (hscans s hs)
  have hserials : (s.onePass k p.residual p.since).Pairwise fun a b =>
      a.createdAt = b.createdAt → b.serial < a.serial :=
    Scan.onePass_ties hr hfits htimes (hscans s hs)
  refine (hnewest.and hserials).imp_of_mem fun {a b} ha hb hab => ?_
  obtain ⟨hle, hserial⟩ := hab
  refine Hit.notAfter_iff.mp ?_
  by_cases heq : a.createdAt = b.createdAt
  · have hlt : compare a.record.id b.record.id = .lt := hsmaller a ha b hb heq (hserial heq)
    exact .inr ⟨heq, by rw [hlt]; rfl⟩
  · exact .inl (Int64.lt_of_le_of_ne hle (Ne.symm heq))

/-- What a plan finds is in the order of delivery, if in each scan the records of one time are. -/
theorem found_comesBefore (hu : L.Unique) :
    (p.found k pageSize).Pairwise fun a b => a.record.ComesBefore b.record := by
  have hordered : (p.found k pageSize).Pairwise fun a b => b.precedes a = false := by
    refine Merge.all_pairwise Hit.ranks.agrees fun l hl => ?_
    obtain ⟨s, hs, rfl⟩ := List.mem_map.mp hl
    exact hits_ordered hr hfits htimes hscans hties hs
  have hserials := List.pairwise_map.mp (found_nodup p k pageSize)
  refine (hordered.and hserials).imp_of_mem fun {a b} ha hb hab => ?_
  obtain ⟨hprecedes, hne⟩ := hab
  obtain ⟨h, r, hL, hr', heq, -⟩ := (mem_found hr hfits hscans).mp ha
  obtain ⟨h', r', hL', hr'', heq', -⟩ := (mem_found hr hfits hscans).mp hb
  rw [Hit.precedes_byAge, heq, heq'] at hprecedes
  rw [heq, heq']
  refine (isOlder_or_eq hprecedes).resolve_right fun hsame => hne ?_
  -- records of different serials have different identifiers
  have hid : r.id = r'.id := hsame.2
  rw [Holding.id_of_found? hr', Holding.id_of_found? hr''] at hid
  exact hu _ _ h h' hL hL' (Holding.isSome_stub?_of_found? hr')
    (Holding.isSome_stub?_of_found? hr'') hid

end
end Plan

namespace Archive

/-- **Records of one time come by their identifiers**, if in every scan what was saved later has
the smaller one, and a limit keeps those with the smallest ones.  The archive is open, its records
are whole and of times that are not negative, and the query is without identifiers. -/
theorem query_ties_ordered {es : List Event} {a : Archive} (ha : Reached es a)
    (hid : Identified es) (hfits : ∀ e ∈ es, e.Sized) (hopen : a.isClosed = false)
    (hwhole : ∀ record ∈ a.db.events.ofLayout .event, StoredValue.isStub record.2 = false)
    (htimes : ∀ e ∈ a.db.events.storedEvents, 0 ≤ e.createdAt) (f : Filter)
    (hids : f.ids = []) {plan : Plan} (hplan : Plan.ofFilter f = .ok plan)
    (hties : plan.LaterSmaller a.db.events a.config.scanPageSize.toNat) (now : Int64) :
    ∃ reading, (a.query now f false).1 = .ok reading ∧
      reading.records.Pairwise Record.ComesBefore ∧
      ∀ hit ∈ plan.found a.db.events a.config.scanPageSize.toNat, hit.record ∉ reading.records →
        ∀ r ∈ reading.records, r.ComesBefore hit.record := by
  obtain ⟨L, J, hf, hmem⟩ := ha.exists_follows hid
  have hr : a.db.events.Renders L := hf.db.events
  have hsized : ∀ s h, L s = some h → h.event.Sized := fun s h hL => hfits _ (hmem s h hL)
  have hw : L.Whole := hr.whole hsized hwhole htimes
  let limit := (a.config.effectiveLimit f.limit).toNat
  let found := plan.found a.db.events a.config.scanPageSize.toNat
  have hordered : found.Pairwise fun x y => x.record.ComesBefore y.record :=
    Plan.found_comesBefore hr hsized hw.times
      (fun s hs => Plan.timed_of_mem_scans hplan hids hs) hties hf.unique
  refine ⟨_, query_eq hopen hplan now, ?_, fun hit hhit hout r hdelivered => ?_⟩
  · exact List.pairwise_map.mpr hordered.take
  · -- what the limit leaves out comes after everything that it keeps
    have hdrop : hit ∈ found.drop limit := by
      have hin : hit ∈ found.take limit ++ found.drop limit := by
        rw [List.take_append_drop]
        exact hhit
      exact (List.mem_append.mp hin).resolve_left fun h => hout (List.mem_map_of_mem h)
    obtain ⟨x, hx, rfl⟩ := List.mem_map.mp hdelivered
    rw [← List.take_append_drop limit found, List.pairwise_append] at hordered
    exact hordered.2.2 x hx hit hdrop

/-- Of three notes of one time by two authors, those of the first were saved in descending order
of their identifiers. -/
theorem query_ties_ordered_descending :
    let es : List Event := [.uniform 5 7 50 1 [], .uniform 3 7 50 1 [], .uniform 4 8 50 1 []]
    let a := fresh.saveAll 5 es
    let f := (Filter.any.withAuthors [⟨List.replicate 32 7, rfl⟩,
      ⟨List.replicate 32 8, rfl⟩]).withLimit 2
    ∃ reading, Reached es a ∧ (a.query 9 f false).1 = .ok reading ∧
      reading.records.map (·.id.bytes.head?) = [some 3, some 4] ∧
      reading.records.Pairwise Record.ComesBefore := by
  intro es a f
  have ha : Reached es a := Reached.fresh.saveAll 5 es
  have hplan : Plan.ofFilter f = .ok (Plan.choose f) := rfl
  obtain ⟨reading, hok, hordered, -⟩ := query_ties_ordered ha (by decide +kernel)
    (by decide +kernel) (by decide +kernel) (by decide +kernel) (by decide +kernel) f rfl hplan
    (by decide +kernel) 9
  have hread : (a.query 9 f false).1.toOption.map (·.records.map (·.id.bytes.head?)) =
      some [some 3, some 4] := by decide +kernel
  rw [hok] at hread
  exact ⟨reading, ha, hok, Option.some.inj hread, hordered⟩

/-- Of three notes of one time by two authors, those of the first were saved in ascending order of
their identifiers.  They come the other way round, a note of the second author comes before one
with a smaller identifier, and a limit keeps that note alone. -/
theorem query_ties_reversed :
    let es : List Event := [.uniform 1 7 50 1 [], .uniform 9 7 50 1 [], .uniform 4 8 50 1 []]
    let a := fresh.saveAll 5 es
    let f := Filter.any.withAuthors [⟨List.replicate 32 7, rfl⟩, ⟨List.replicate 32 8, rfl⟩]
    Reached es a ∧ (∀ record ∈ a.db.events.ofLayout .event, StoredValue.isStub record.2 = false) ∧
      (a.query 9 f false).1.toOption.map (·.records.map (·.id.bytes.head?)) =
        some [some 4, some 9, some 1] ∧
      (a.query 9 (f.withLimit 1) false).1.toOption.map (·.records.map (·.id.bytes.head?)) =
        some [some 4] ∧
      ¬ ∃ reading, (a.query 9 f false).1 = .ok reading ∧
        reading.records.Pairwise Record.ComesBefore := by
  intro es a f
  refine ⟨Reached.fresh.saveAll 5 es, by decide +kernel, by decide +kernel, by decide +kernel, ?_⟩
  rintro ⟨reading, hok, hordered⟩
  have hread : (a.query 9 f false).1.toOption.map
      (fun r => decide (r.records.Pairwise Record.ComesBefore)) = some false := by
    decide +kernel
  rw [hok] at hread
  exact of_decide_eq_false (Option.some.inj hread) hordered

end Archive
end EventArchive
