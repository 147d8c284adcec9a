import EventArchive.Proofs.Demotion

/-! # Counting agrees with querying

A query walks its scans page by page, looks at the record behind every key and
merges what it finds; a count walks each scan once, and where the index expresses
the whole filter it does not look at the records at all.  It may leave them out
because the keys of such an index never outlive their record: what a displaced
record leaves behind until the next sweep are tag keys, and the tag index always
leaves something to be checked.  So a plan counts exactly the records that it
finds (`Plan.length_found_eq_count`), and a query delivers as many of them as its
limit allows (`Archive.count_eq_length_query`).
-/
namespace EventArchive

/-- A key of an index without tags is one of a record. -/
theorem Holding.isSome_stub?_of_untagged {h : Holding} {ser : Serial} {key : Bytes} {l : Layout}
    (hkey : key ∈ h.keys ser) (hl : Key.layout? key = some l) (htag : l.isTag = false) :
    h.stub?.isSome := by
  cases h with
  | live e t => rfl
  | demoted e => rfl
  | queued e =>
    obtain ⟨l', hl', htag'⟩ := Key.layout?_of_mem_tagged hkey
    obtain rfl := Option.some.inj (hl.symm.trans hl')
    cases htag.symm.trans htag'

/-- Every record passes where nothing is left to be checked. -/
theorem Holding.exists_hit?_none {h : Holding} (hrec : h.stub?.isSome) (time : Option UInt64)
    (ser : Serial) : ∃ hit, h.hit? none time ser = some hit := by
  cases h with
  | live e t => exact ⟨⟨ser, e.createdAt, .full e⟩, rfl⟩
  | demoted e => exact ⟨⟨ser, _, .stub e.id _⟩, rfl⟩
  | queued e => cases hrec

/-- A scan of an index without tags. -/
def Scan.Untagged (s : Scan) : Prop := ∃ l, Key.layout? s.stem = some l ∧ l.isTag = false

namespace Plan
variable {f : Filter} {p : Plan} {k : Keyspace} {L : Ledger} {ser : Serial}

/-- **Only an index without tags leaves nothing to be checked.** -/
theorem untagged_of_residual_eq_none (hplan : ofFilter f = .ok p) (hnone : p.residual = none)
    {s : Scan} (hs : s ∈ p.scans) : s.Untagged := by
  rw [eq_of_ofFilter hplan] at hs hnone
  split at hs
  · cases hs
  rename_i hpossible
  rw [if_neg hpossible] at hnone
  by_cases hids : f.ids = []
  · rcases choose_cases hids with ⟨-, hchoose⟩ | ⟨-, -, hchoose⟩ | ⟨-, -, -, hchoose⟩ |
      ⟨-, -, -, hchoose⟩
    · rw [hchoose] at hnone
      cases hnone
    · rw [hchoose] at hnone
      cases hnone
    · rw [hchoose] at hs
      obtain ⟨kind, -, rfl⟩ := mem_kindScans.mp hs
      exact ⟨.kind, Key.layout?_kindStem kind, rfl⟩
    · rw [hchoose] at hs
      obtain rfl := List.mem_singleton.mp hs
      exact ⟨.createdAt, Key.layout?_createdAtStem, rfl⟩
  · have hsome : (choose f).residual = some { f with limit := none } := by simp [choose, hids]
    cases hnone.symm.trans hsome

/-- A serial that a scan without tags meets has a record. -/
theorem exists_record_of_meets (hr : k.Renders L) (hp : p.Uniform)
    (huntagged : ∀ s ∈ p.scans, s.Untagged) (hmeets : p.Meets k ser) :
    ∃ h, L ser = some h ∧ h.stub?.isSome := by
  obtain ⟨s, hs, key, hkey, -, hser⟩ := hmeets
  have hbelow := Scan.mem_keysBelow_of_mem_keysMet hkey
  obtain ⟨ser', h, hL, hser', hkeys⟩ := (hp.indexed s hs).exists_holding hr hbelow
  obtain rfl := Option.some.inj (hser.symm.trans hser')
  obtain ⟨l, hl, -, hstem⟩ := (hp.indexed s hs).layout? hbelow
  obtain ⟨l', hstem', htag⟩ := huntagged s hs
  obtain rfl := Option.some.inj (hstem.symm.trans hstem')
  exact ⟨h, hL, Holding.isSome_stub?_of_untagged hkeys hl htag⟩

section
variable (hr : k.Renders L) (hfits : ∀ s h, L s = some h → h.event.Sized)
  (hplan : ofFilter f = .ok p)
include hr hfits hplan

/-- **What a plan counts it finds.** -/
theorem exists_found_of_counted (pageSize : Nat)
    (hser : ser ∈ p.scans.flatMap fun s => s.countedSerials k p.residual p.since) :
    ∃ hit ∈ p.found k pageSize, hit.serial = ser := by
  have hp := uniform_of_ofFilter hplan
  obtain ⟨hmeets, hpass⟩ := (mem_counted_iff_meets hr hfits hp).mp hser
  have hhit : ∃ h hit, L ser = some h ∧
      h.hit? p.residual (p.timeFor h.event) ser = some hit := by
    rcases hpass with hnone | hpass
    · obtain ⟨h, hL, hrec⟩ := exists_record_of_meets hr hp
        (fun s hs => untagged_of_residual_eq_none hplan hnone hs) hmeets
      obtain ⟨hit, hhit⟩ := Holding.exists_hit?_none hrec (p.timeFor h.event) ser
      exact ⟨h, hit, hL, hnone ▸ hhit⟩
    · exact hpass
  obtain ⟨h, hit, hL, hhit⟩ := hhit
  obtain rfl := Holding.serial_of_hit? hhit
  exact ⟨hit, (mem_found_iff_meets hr hfits hp).mpr ⟨hmeets, h, hL, hhit⟩, rfl⟩

/-- **A plan counts the records that it finds.** -/
theorem length_found_eq_count (pageSize : Nat) : (p.found k pageSize).length = p.count k := by
  refine Nat.le_antisymm ?_ ?_
  · exact length_found_le_count hr hfits (uniform_of_ofFilter hplan) pageSize
  · rw [← List.length_map (·.serial), count]
    refine (List.subperm_of_subset (nodup_distinct _) fun ser hser => ?_).length_le
    rw [mem_distinct] at hser
    obtain ⟨hit, hmem, rfl⟩ := exists_found_of_counted hr hfits hplan pageSize hser
    exact List.mem_map_of_mem hmem

end
end Plan

namespace Archive

/-- **Counting agrees with querying.**  In every reachable archive, whatever of it is whole, demoted
or waiting for a sweep, a count fails as the query with the same filter does, which on an open
archive is where there is no plan for the filter.  Otherwise the query completes, and delivers the
number of records that the count gives, or the limit if that is less. -/
theorem count_eq_length_query {es : List Event} {a : Archive} (ha : Reached es a)
    (hid : Identified es) (hfits : ∀ e ∈ es, e.Sized) (f : Filter) (now : Int64) :
    (∀ err, a.count f false = .error err ↔ (a.query now f false).1 = .error err) ∧
    (a.isClosed = false →
      ∀ err, a.count f false = .error err ↔ Plan.ofFilter f = .error err) ∧
    ∀ n, a.count f false = .ok n → ∃ reading, (a.query now f false).1 = .ok reading ∧
      reading.outcome = .complete ∧
      reading.records.length = min (a.config.effectiveLimit f.limit).toNat n := by
  obtain ⟨L, J, hf, hmem⟩ := ha.exists_follows hid
  have hr : a.db.events.Renders L := hf.db.events
  have hsized : ∀ s h, L s = some h → h.event.Sized := fun s h hL => hfits _ (hmem s h hL)
  cases hclosed : a.isClosed with
  | true =>
    have hcount : a.count f false = .error .closed := by
      simp only [count, ensureOpen, hclosed]
      rfl
    have hquery : (a.query now f false).1 = .error .closed := by
      simp only [query, feed, ensureOpen, hclosed]
      rfl
    rw [hcount, hquery]
    refine ⟨fun err => ?_, fun hopen => ?_, fun n hn => ?_⟩
    · rw [Except.error.injEq, Except.error.injEq]
    · cases hopen
    · cases hn
  | false =>
    cases hplan : Plan.ofFilter f with
    | error err =>
      have hcount : a.count f false = .error err := by
        simp only [count, ensureOpen, hclosed, hplan]
        rfl
      have hquery : (a.query now f false).1 = .error err := by
        simp only [query, feed, ensureOpen, hclosed, hplan]
        rfl
      rw [hcount, hquery]
      refine ⟨fun err => ?_, fun _ err => ?_, fun n hn => ?_⟩
      · rw [Except.error.injEq, Except.error.injEq]
      · rw [Except.error.injEq, Except.error.injEq]
      · cases hn
    | ok plan =>
      rw [count_eq hclosed hplan, query_eq hclosed hplan]
      refine ⟨fun err => ?_, fun _ err => ?_, fun n hn => ?_⟩
      · constructor <;> intro hfail <;> cases hfail
      · constructor <;> intro hfail <;> cases hfail
      · obtain rfl := Except.ok.inj hn
        refine ⟨_, rfl, rfl, ?_⟩
        show ((plan.hits _ _ _).map Hit.record).length = _
        rw [List.length_map, Plan.hits_eq_take, List.length_take,
          Plan.length_found_eq_count hr hsized hplan]

/-- Of four records one is displaced while it is demoted, and its tag keys wait for a sweep; one is
demoted, and two are whole. -/
theorem count_eq_length_query_displaced :
    let a := (fresh.saveAll 5 [.uniform 1 7 10 0 [⟨["t", "x"]⟩], .uniform 2 7 20 1 []]).demote [0, 1]
    let b := a.saveAll 6 [.uniform 3 7 30 0 [], .uniform 4 8 40 1 []]
    let f := (Filter.any.withKinds [⟨0⟩, ⟨1⟩]).withLimit 2
    ∃ reading, (∃ es, Reached es b) ∧ (b.db.purge.get? 0).isSome ∧ b.count f false = .ok 3 ∧
      (b.query 9 f false).1 = .ok reading ∧ reading.records.length = 2 := by
  intro a b f
  let es : List Event := [.uniform 1 7 10 0 [⟨["t", "x"]⟩], .uniform 2 7 20 1 [],
    .uniform 3 7 30 0 [], .uniform 4 8 40 1 []]
  have ha : Reached (es.take 2) a := (Reached.fresh.saveAll 5 (es.take 2)).work _ rfl
  have hb : Reached es b := ha.saveAll 6 (es.drop 2)
  have hplan : Plan.ofFilter f = .ok (Plan.choose f) := rfl
  have hcount : b.count f false = .ok 3 := by
    rw [count_eq rfl hplan]
    exact congrArg Except.ok (by decide +kernel)
  obtain ⟨-, -, hquery⟩ :=
    count_eq_length_query hb (by decide +kernel) (by decide +kernel) f 9
  obtain ⟨reading, hread, -, hlength⟩ := hquery 3 hcount
  exact ⟨reading, ⟨es, hb⟩, by decide +kernel, hcount, hread, hlength⟩

end Archive
end EventArchive
