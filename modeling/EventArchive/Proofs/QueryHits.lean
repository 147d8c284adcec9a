import EventArchive.Archive.Query
import EventArchive.Proofs.Found
import EventArchive.Proofs.MergeOrder

/-! # What a plan finds

The scans of a plan are merged and cut to the limit.  Before the cut the merge
holds every record that one of the scans reaches and that passes the rest of the
filter, each once, newest first.
-/
namespace EventArchive
namespace Plan

/-- Everything that the scans of a plan find, in the order in which it is delivered. -/
def found (p : Plan) (k : Keyspace) (pageSize : Nat) : List Hit :=
  Merge.all (p.scans.map fun s => s.hits k p.residual p.since pageSize)

theorem hits_eq_take (p : Plan) (k : Keyspace) (limit pageSize : Nat) :
    p.hits k limit pageSize = (p.found k pageSize).take limit := rfl

section
variable {p : Plan} {k : Keyspace} {L : Ledger} {hit : Hit} {pageSize : Nat}

theorem mem_flatten_hits (hr : k.Renders L) (hfits : ∀ ser h, L ser = some h → h.event.Sized)
    (hscans : ∀ s ∈ p.scans, s.Timed) :
    hit ∈ (p.scans.map fun s => s.hits k p.residual p.since pageSize).flatten ↔
      ∃ h r, L hit.serial = some h ∧ h.found? p.residual = some r ∧
        hit = ⟨hit.serial, r.createdAt, r⟩ ∧
        ∃ s ∈ p.scans, s.Reaches p.since h.event hit.serial := by
  rw [List.mem_flatten]
  constructor
  · rintro ⟨l, hl, hmem⟩
    obtain ⟨s, hs, rfl⟩ := List.mem_map.mp hl
    rw [Scan.hits_eq_onePass, Scan.mem_onePass hr hfits (hscans s hs)] at hmem
    obtain ⟨h, r, hL, hr', heq, hreaches⟩ := hmem
    exact ⟨h, r, hL, hr', heq, s, hs, hreaches⟩
  · rintro ⟨h, r, hL, hr', heq, s, hs, hreaches⟩
    refine ⟨_, List.mem_map_of_mem hs, ?_⟩
    rw [Scan.hits_eq_onePass, Scan.mem_onePass hr hfits (hscans s hs)]
    exact ⟨h, r, hL, hr', heq, hreaches⟩

/-- **What a plan finds** are the records that one of its scans reaches and that pass the rest of
the filter. -/
theorem mem_found (hr : k.Renders L) (hfits : ∀ ser h, L ser = some h → h.event.Sized)
    (hscans : ∀ s ∈ p.scans, s.Timed) : hit ∈ p.found k pageSize ↔
      ∃ h r, L hit.serial = some h ∧ h.found? p.residual = some r ∧
        hit = ⟨hit.serial, r.createdAt, r⟩ ∧
        ∃ s ∈ p.scans, s.Reaches p.since h.event hit.serial := by
  rw [found, Merge.mem_all, mem_flatten_hits hr hfits hscans]
  intro a ha b hb heq
  obtain ⟨h, r, hL, hr', ha, -⟩ := (mem_flatten_hits hr hfits hscans).mp ha
  obtain ⟨h', r', hL', hr'', hb, -⟩ := (mem_flatten_hits hr hfits hscans).mp hb
  -- the record of a serial is the same whichever scan finds it
  rw [heq, hL'] at hL
  cases hL
  rw [hr''] at hr'
  cases hr'
  rw [ha, hb, heq]

theorem found_sorted (hr : k.Renders L) (hfits : ∀ ser h, L ser = some h → h.event.Sized)
    (htimes : ∀ ser e t, L ser = some (.live e t) → 0 ≤ e.createdAt)
    (hscans : ∀ s ∈ p.scans, s.Timed) : NewestFirst (p.found k pageSize) := by
  refine Merge.all_sorted fun l hl => ?_
  obtain ⟨s, hs, rfl⟩ := List.mem_map.mp hl
  rw [Scan.hits_eq_onePass]
  exact Scan.onePass_sorted hr hfits htimes (hscans s hs)

theorem found_nodup (p : Plan) (k : Keyspace) (pageSize : Nat) :
    ((p.found k pageSize).map Hit.serial).Nodup :=
  Merge.all_nodup _

end
end Plan

/-- An open archive sends the hits of the plan of a query. -/
theorem Archive.feed_eq {a : Archive} {f : Filter} {p : Plan} (hopen : a.isClosed = false)
    (hplan : Plan.ofFilter f = .ok p) : a.feed f false = .ok (.ofQuery (p.hits a.db.events
      (a.config.effectiveLimit f.limit).toNat a.config.scanPageSize.toNat)) := by
  simp only [feed, ensureOpen, hopen, hplan]
  rfl

/-- A query on an open archive delivers the hits of its plan, and completes. -/
theorem Archive.query_eq {a : Archive} {f : Filter} {p : Plan} (hopen : a.isClosed = false)
    (hplan : Plan.ofFilter f = .ok p) (now : Int64) :
    (a.query now f false).1 = .ok ⟨(p.hits a.db.events (a.config.effectiveLimit f.limit).toNat
      a.config.scanPageSize.toNat).map Hit.record, [], .complete⟩ := by
  rw [query, feed_eq hopen hplan]
  rfl

theorem Archive.count_eq {a : Archive} {f : Filter} {p : Plan} (hopen : a.isClosed = false)
    (hplan : Plan.ofFilter f = .ok p) : a.count f false = .ok (p.count a.db.events) := by
  simp only [count, ensureOpen, hopen, hplan]
  rfl

end EventArchive
