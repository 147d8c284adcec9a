import EventArchive.Proofs.CountAgrees
import EventArchive.Proofs.Sweeps

/-! # What displaced records leave behind

A demoted record that a newer version displaces leaves its tag keys, for nothing is
left to tell them by; its serial is queued until the next sweep of the indices.  Till
then scans still meet these keys.  They are no hits, because every key of a hit leads
to a record and a queued serial has none (`Scan.hits_without`); and where a count does
not look at records it goes through an index without tags, which holds no such key
(`Plan.count_without`).  So nobody can tell them from keys that are gone, and after the
next cycle they are gone (`Archive.leftovers_invisible`).
-/
namespace EventArchive

/-! ### Leaving out serials -/

namespace Keyspace
variable {k : Keyspace} {q : Serial → Bool}

/-- A key space without the keys of some serials. -/
def without (k : Keyspace) (q : Serial → Bool) : Keyspace :=
  k.filter fun key _ => !(Key.serial? key).any q

theorem get?_without (k : Keyspace) (q : Serial → Bool) (key : Bytes) :
    (k.without q).get? key = if (Key.serial? key).any q then none else k.get? key := by
  rw [without, SortedMap.get?_filter]
  cases k.get? key <;> cases (Key.serial? key).any q <;> rfl

/-- Serials without a record may be left out without a loss of records. -/
theorem record?_without (hq : ∀ s, q s = true → k.record? s = none) (s : Serial) :
    (k.without q).record? s = k.record? s := by
  rw [record?, get?_without, Key.serial?_event, Option.any_some]
  split
  · rename_i hs
    exact (hq s hs).symm
  · rfl

end Keyspace

namespace Scan
variable {s : Scan} {k : Keyspace} {q : Serial → Bool} {residual : Option Filter} {since : UInt64}

theorem keysBelow_without (s : Scan) (k : Keyspace) (q : Serial → Bool) (u : Bytes) :
    s.keysBelow (k.without q) u = (s.keysBelow k u).filter fun key => !(Key.serial? key).any q := by
  rw [keysBelow, keysBelow, List.filter_reverse, List.filter_map, SortedMap.range, SortedMap.range,
    Keyspace.without, SortedMap.filter, List.filter_filter, List.filter_filter]
  congr 2
  exact List.filter_congr fun e _ => Bool.and_comm _ _

/-- What a scan makes of its keys does not change with keys that it makes nothing of. -/
theorem filterMap_without {β : Type} {g : Bytes → Option β}
    (howns : ∀ key, (g key).isSome → s.owns key = true)
    (hnone : ∀ key ∈ s.keysBelow k s.upper, (Key.serial? key).any q = true → g key = none) :
    ((s.keysBelow (k.without q) s.upper).takeWhile (!s.isPast since ·)).filterMap g =
      ((s.keysBelow k s.upper).takeWhile (!s.isPast since ·)).filterMap g := by
  rw [filterMap_recent howns, filterMap_recent howns, keysBelow_without, List.filter_filter,
    List.filterMap_filter, List.filterMap_filter]
  refine List.filterMap_congr fun key hkey => ?_
  cases hserial : (Key.serial? key).any q with
  | true => rw [hnone key hkey hserial, ite_self, ite_self]
  | false => rw [Bool.not_false, Bool.and_true]

theorem resolve_without (hq : ∀ s, q s = true → k.record? s = none) (time : Option UInt64)
    (key : Bytes) : resolve (k.without q) residual time key = resolve k residual time key := by
  simp only [resolve, Keyspace.record?_without hq]

/-- A key without a record leads nowhere. -/
theorem resolve_eq_none (hq : ∀ s, q s = true → k.record? s = none) {time : Option UInt64}
    {key : Bytes} (hserial : (Key.serial? key).any q = true) :
    resolve k residual time key = none := by
  obtain ⟨ser, hser, hqueued⟩ := (Option.any_eq_true _ _).mp hserial
  rw [resolve, hser, Option.bind_eq_bind, Option.bind_some, hq ser hqueued]
  rfl

/-- **Keys without a record are no hits.** -/
theorem hits_without (hq : ∀ s, q s = true → k.record? s = none) (pageSize : Nat) :
    s.hits (k.without q) residual since pageSize = s.hits k residual since pageSize := by
  have hhit : s.hit? (k.without q) residual = s.hit? k residual := by
    funext key
    rw [hit?, hit?, resolve_without hq]
  rw [hits_eq_onePass, hits_eq_onePass, onePass, onePass, hhit]
  refine filterMap_without (fun key hsome => ?_) fun key _ hserial => ?_
  · obtain ⟨hit, heq⟩ := Option.isSome_iff_exists.mp hsome
    exact owns_of_hit? heq
  · rw [hit?, resolve_eq_none hq hserial, ite_self]

theorem owns_of_counted? {key : Bytes} (h : (s.counted? k residual key).isSome) :
    s.owns key = true := by
  by_contra howns
  rw [counted?, if_neg howns] at h
  cases h

/-- A scan counts no key without a record, if it looks at records or meets no such key. -/
theorem countedSerials_without (hq : ∀ s, q s = true → k.record? s = none)
    (hmeets : residual = none →
      ∀ key ∈ s.keysBelow k s.upper, (Key.serial? key).any q = false) :
    s.countedSerials (k.without q) residual since = s.countedSerials k residual since := by
  have hcounted : s.counted? (k.without q) residual = s.counted? k residual := by
    funext key
    rw [counted?, counted?, resolve_without hq]
  rw [countedSerials, countedSerials, hcounted]
  refine filterMap_without (fun key => owns_of_counted?) fun key hkey hserial => ?_
  cases hres : residual with
  | none =>
    rw [hmeets hres key hkey] at hserial
    cases hserial
  | some f =>
    rw [counted?, resolve_eq_none hq hserial]
    exact ite_self _

end Scan

/-! ### Leaving out what is queued -/

namespace Database

/-- A database without the keys that wait for the next sweep. -/
def withoutQueued (db : Database) : Database :=
  { db with events := db.events.without db.purge.contains }

namespace Represents
variable {db : Database} {L : Ledger}

/-- What is queued has no record. -/
theorem record?_of_queued (hdb : db.Represents L) (s : Serial) (hs : db.purge.contains s = true) :
    db.events.record? s = none := by
  obtain ⟨e, hL⟩ := (hdb.purge s).mp hs
  rw [hdb.events.record?, hL]
  rfl

/-- A key of a record is not queued. -/
theorem contains_eq_false (hdb : db.Represents L) {s : Serial} {h : Holding} (hL : L s = some h)
    (hheld : h.stub?.isSome) : db.purge.contains s = false := by
  rw [Bool.eq_false_iff]
  intro hqueued
  obtain ⟨e, hL'⟩ := (hdb.purge s).mp hqueued
  obtain rfl := Option.some.inj (hL.symm.trans hL')
  cases hheld

/-- **A collection leaves no leftovers**: nothing is queued, and every index key leads to a
record. -/
theorem collect_leaves (hdb : db.Represents L) (config : CollectionConfig) (demote : Bool) :
    (db.collect config demote).2.purge = ∅ ∧
      ∀ key v l, (db.collect config demote).2.events.get? key = some v →
        Key.layout? key = some l → l.isSecondary = true →
          ∃ s, Key.serial? key = some s ∧
            ((db.collect config demote).2.events.record? s).isSome := by
  have hpurge : (db.collect config demote).2.purge = ∅ := IndexTier.purge_sweep _ _
  have hdb' : ∃ L', (db.collect config demote).2.Represents L' :=
    ⟨_, (hdb.sweepRecords _ demote).sweepIndices _⟩
  obtain ⟨L', hdb'⟩ := hdb'
  refine ⟨hpurge, fun key v l hv hl hsec => ?_⟩
  obtain ⟨s, h, hL, hserial, -⟩ := hdb'.events.exists_mem_keys hv hl hsec
  refine ⟨s, hserial, ?_⟩
  rw [hdb'.events.record?, hL, Option.bind_some]
  -- of the holdings only what is queued has no record, and nothing is
  cases h with
  | live e t => rfl
  | demoted e => rfl
  | queued e =>
    have hqueued := (hdb'.purge s).mpr ⟨e, hL⟩
    rw [hpurge] at hqueued
    cases hqueued

end Represents
end Database

namespace Plan
variable {f : Filter} {p : Plan} {db : Database} {L : Ledger}

/-- **A plan finds no leftovers.** -/
theorem hits_withoutQueued (hdb : db.Represents L) (p : Plan) (limit pageSize : Nat) :
    p.hits db.withoutQueued.events limit pageSize = p.hits db.events limit pageSize := by
  rw [hits_eq_take, hits_eq_take, found, found]
  congr 2
  exact List.map_congr_left fun s _ => Scan.hits_without hdb.record?_of_queued pageSize

/-- **A plan counts no leftovers.** -/
theorem count_withoutQueued (hdb : db.Represents L) (hplan : ofFilter f = .ok p) :
    p.count db.withoutQueued.events = p.count db.events := by
  have hscans : ∀ s ∈ p.scans, s.countedSerials db.withoutQueued.events p.residual p.since =
      s.countedSerials db.events p.residual p.since := by
    intro s hs
    refine Scan.countedSerials_without hdb.record?_of_queued fun hnone key hkey => ?_
    have hindexed := (uniform_of_ofFilter hplan).indexed s hs
    obtain ⟨ser, h, hL, hser, hkeys⟩ := hindexed.exists_holding hdb.events hkey
    obtain ⟨l, hl, -, hstem⟩ := hindexed.layout? hkey
    obtain ⟨l', hstem', htag⟩ := untagged_of_residual_eq_none hplan hnone hs
    obtain rfl := Option.some.inj (hstem.symm.trans hstem')
    rw [hser]
    exact hdb.contains_eq_false hL (Holding.isSome_stub?_of_untagged hkeys hl htag)
  rw [count, count, List.flatMap_congr hscans]

end Plan

/-! ### Archives -/

namespace Archive

/-- An archive whose leftovers are gone already. -/
def withoutQueued (a : Archive) : Archive := { a with db := a.db.withoutQueued }

/-- A query sends what it would send if the leftovers were gone. -/
theorem feed_withoutQueued {a : Archive} {L : Ledger} (hdb : a.db.Represents L) (f : Filter)
    (cancelled : Bool) : a.withoutQueued.feed f cancelled = a.feed f cancelled := by
  have hopen : a.withoutQueued.ensureOpen = a.ensureOpen := rfl
  rw [feed, feed, hopen]
  refine congrArg _ (funext fun _ => congrArg _ (funext fun plan => ?_))
  have hhits := Plan.hits_withoutQueued hdb plan
  cases cancelled with
  | true => rfl
  | false => exact congrArg (fun hits => Except.ok (Feed.ofQuery hits)) (hhits _ _)

/-- **Leftovers are invisible and do not last.**  In every reachable archive, a query, whether it is
read to the end, stopped or cancelled, and a count answer as they would if all keys of queued
serials were gone.  After a cycle of collection, whatever it is configured to do, nothing is queued
and every index key leads to a record. -/
theorem leftovers_invisible {es : List Event} {a : Archive} (ha : Reached es a)
    (hid : Identified es) :
    (∀ f : Filter, ∀ now,
      (∀ cancelled, (a.withoutQueued.query now f cancelled).1 = (a.query now f cancelled).1) ∧
      (∀ n, (a.withoutQueued.take now f n).1 = (a.take now f n).1) ∧
      a.withoutQueued.count f false = a.count f false) ∧
    ∀ config demote,
      (a.db.collect config demote).2.purge = ∅ ∧
      ∀ key v l, (a.db.collect config demote).2.events.get? key = some v →
        Key.layout? key = some l → l.isSecondary = true →
          ∃ s, Key.serial? key = some s ∧
            ((a.db.collect config demote).2.events.record? s).isSome := by
  obtain ⟨L, J, hf, -⟩ := ha.exists_follows hid
  have hdb : a.db.Represents L := hf.db
  refine ⟨fun f now => ⟨fun cancelled => ?_, fun n => ?_, ?_⟩, hdb.collect_leaves⟩
  · rw [query, query, feed_withoutQueued hdb]
    cases a.feed f cancelled <;> rfl
  · rw [take, take, feed_withoutQueued hdb]
    cases a.feed f false <;> rfl
  · rw [count, count]
    refine congrArg _ (funext fun _ => ?_)
    cases hplan : Plan.ofFilter f with
    | error err => rfl
    | ok plan => exact congrArg Except.ok (Plan.count_withoutQueued hdb hplan)

/-- A record with a tag is demoted and then displaced.  A scan of its tag value still meets its key,
until a cycle that has nothing to collect. -/
theorem leftovers_invisible_displaced :
    let a := (fresh.saveAll 5 [.uniform 1 7 10 0 [⟨["t", "x"]⟩]]).demote [0]
    let b := a.saveAll 6 [.uniform 2 7 20 0 []]
    let f := Filter.any.withTag 't' ["x"]
    let config : CollectionConfig := { b.config.collection with sizeLimit := 0 }
    ∃ plan, (∃ es, Reached es b) ∧ Plan.ofFilter f = .ok plan ∧
      plan.meetsKey b.db.events = true ∧ plan.meetsKey b.withoutQueued.db.events = false ∧
      (b.withoutQueued.query 9 f false).1 = (b.query 9 f false).1 ∧
      b.withoutQueued.count f false = b.count f false ∧
      b.db.purge.contains 0 = true ∧ (b.db.collect config false).2.purge = ∅ := by
  intro a b f config
  have ha : Reached [.uniform 1 7 10 0 [⟨["t", "x"]⟩]] a :=
    (Reached.fresh.saveAll 5 [.uniform 1 7 10 0 [⟨["t", "x"]⟩]]).work _ rfl
  have hb : Reached [.uniform 1 7 10 0 [⟨["t", "x"]⟩], .uniform 2 7 20 0 []] b :=
    ha.saveAll 6 [.uniform 2 7 20 0 []]
  obtain ⟨hanswers, hcycle⟩ := leftovers_invisible hb (by decide +kernel)
  obtain ⟨hquery, -, hcount⟩ := hanswers f 9
  exact ⟨Plan.choose f, ⟨_, hb⟩, rfl, by decide +kernel, by decide +kernel, hquery false, hcount,
    by decide +kernel, (hcycle config false).1⟩

end Archive
end EventArchive
