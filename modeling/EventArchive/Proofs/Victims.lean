import EventArchive.Proofs.Budget
import EventArchive.Proofs.Censuses
import EventArchive.Proofs.StaleMarks

/-! # Which records a collection takes

What a tier holds has an order: whole records in that of their last access, demoted
ones in that of their times, and those of one time in that of their serials.  A tier
that has reached its high mark gives up the shortest beginning of this order that
brings what is left within the low mark (`Evicts`).  The order is right because each
record is counted with what belongs to it, and the beginning ends where it should
because the bytes that are taken away are those that were counted.  A record that is no
victim of either tier keeps its keys and their values (`Archive.collect_takesFirst`).
-/
namespace EventArchive

/-! ### Occupants -/

/-- A record as far as its tier is concerned. -/
structure Occupant where
  serial : Serial
  /-- The time that decides when it has to go. -/
  time : UInt64
  /-- The bytes it takes up. -/
  bytes : Nat

namespace Occupant

/-- Whether one goes before another. -/
def Precedes (a b : Occupant) : Prop := a.time < b.time ∨ (a.time = b.time ∧ a.serial < b.serial)

/-- Whether one goes before another, or they are of one time and serial. -/
def goesBefore (a b : Occupant) : Bool :=
  a.time < b.time || (a.time == b.time && a.serial ≤ b.serial)

theorem goesBefore_iff {a b : Occupant} : a.goesBefore b = true ↔
    a.time < b.time ∨ (a.time = b.time ∧ a.serial ≤ b.serial) := by
  simp [goesBefore]

theorem goesBefore_trans (a b c : Occupant) (h : a.goesBefore b = true)
    (h' : b.goesBefore c = true) : a.goesBefore c = true := by
  rw [goesBefore_iff] at h h' ⊢
  rcases h with hlt | ⟨heq, hle⟩
  · rcases h' with hlt' | ⟨heq', -⟩
    · exact .inl (UInt64.lt_trans hlt hlt')
    · exact .inl (heq' ▸ hlt)
  · rcases h' with hlt' | ⟨heq', hle'⟩
    · exact .inl (heq ▸ hlt')
    · exact .inr ⟨heq.trans heq', UInt64.le_trans hle hle'⟩

theorem goesBefore_total (a b : Occupant) : (a.goesBefore b || b.goesBefore a) = true := by
  rw [Bool.or_eq_true, goesBefore_iff, goesBefore_iff]
  by_cases heq : a.time = b.time
  · rcases UInt64.le_total a.serial b.serial with hle | hle
    · exact .inl (.inr ⟨heq, hle⟩)
    · exact .inr (.inr ⟨heq.symm, hle⟩)
  · rcases UInt64.le_total a.time b.time with hle | hle
    · exact .inl (.inl (UInt64.lt_of_le_of_ne hle heq))
    · exact .inr (.inl (UInt64.lt_of_le_of_ne hle (Ne.symm heq)))

theorem precedes_of_goesBefore {a b : Occupant} (h : a.goesBefore b = true)
    (hne : a.serial ≠ b.serial) : a.Precedes b := by
  rcases goesBefore_iff.mp h with hlt | ⟨heq, hle⟩
  · exact .inl hlt
  · exact .inr ⟨heq, UInt64.lt_of_le_of_ne hle hne⟩

/-- Bytes of several occupants. -/
def total (os : List Occupant) : Nat := (os.map (·.bytes)).sum

/-- Occupants of different serials have a strict order. -/
theorem precedes_mergeSort {os : List Occupant} (hserials : (os.map (·.serial)).Nodup) :
    (os.mergeSort goesBefore).Pairwise Precedes := by
  have hsorted := List.pairwise_mergeSort goesBefore_trans goesBefore_total os
  have hserials' : ((os.mergeSort goesBefore).map (·.serial)).Nodup :=
    ((List.mergeSort_perm os _).map _).nodup_iff.mpr hserials
  rw [List.Nodup, List.pairwise_map] at hserials'
  exact (hsorted.and hserials').imp fun h => precedes_of_goesBefore h.1 h.2

end Occupant

/-- **The victims of a tier** that holds given occupants, in the order in which they go. -/
structure Evicts (held : Occupant → Prop) (high low : Nat) (order : List Occupant)
    (victims : List Serial) : Prop where
  listed : ∀ o, o ∈ order ↔ held o
  ordered : order.Pairwise Occupant.Precedes
  /-- Below the high mark nothing goes. -/
  below : Occupant.total order < high → victims = []
  /-- The victims are the beginning of the order. -/
  taken : victims = (order.take victims.length).map (·.serial)
  enough : high ≤ Occupant.total order → Occupant.total (order.drop victims.length) ≤ low
  /-- A shorter beginning would not do. -/
  shortest : ∀ n < victims.length, low < Occupant.total (order.drop n)
  /-- Nothing that stays goes before a victim. -/
  first : ∀ o o', held o → held o' → o.serial ∈ victims → o'.serial ∉ victims → o.Precedes o'

/-! ### Shortest beginnings -/

namespace EventTier
variable {α : Type}

/-- A shorter beginning leaves too much. -/
theorem lt_sum_drop {size : α → Nat} {bound n : Nat} {as : List α}
    (hn : n < (needed size bound (as.map size).sum as).length) :
    bound < ((as.drop n).map size).sum := by
  induction as generalizing n with
  | nil => cases hn
  | cons a as ih =>
    rw [needed] at hn
    split at hn
    · cases hn
    · rename_i hmore
      cases n with
      | zero => exact Nat.lt_of_not_le hmore
      | succ n =>
        rw [List.map_cons, List.sum_cons, Nat.add_sub_cancel_left, List.length_cons] at hn
        exact ih (Nat.lt_of_succ_lt_succ hn)

/-- As `needed`, but without a result if more is to be taken away than there is. -/
def neededExact (size : α → Nat) (bound : Nat) : (remaining : Nat) → List α → Option (List α)
  | _, [] => some []
  | remaining, a :: as =>
    if remaining ≤ bound then some []
    else if remaining < size a then none
    else (neededExact size bound (remaining - size a) as).map (a :: ·)

/-- If the remaining bytes are those of the list, no more is taken away than there is. -/
theorem neededExact_eq (size : α → Nat) (bound : Nat) (as : List α) :
    neededExact size bound (as.map size).sum as =
      some (needed size bound (as.map size).sum as) := by
  induction as with
  | nil => rfl
  | cons a as ih =>
    rw [neededExact, needed]
    split
    · rfl
    · rw [List.map_cons, List.sum_cons, if_neg (Nat.not_lt.mpr (Nat.le_add_right _ _)),
        Nat.add_sub_cancel_left, ih, Option.map_some]

/-- A part of a list that is taken from its front, seen through a function. -/
theorem map_needed {β : Type} (f : α → β) (size : β → Nat) (bound remaining : Nat) (as : List α) :
    (needed (fun a => size (f a)) bound remaining as).map f =
      needed size bound remaining (as.map f) := by
  induction as generalizing remaining with
  | nil => rfl
  | cons a as ih =>
    rw [List.map_cons, needed, needed]
    split
    · rfl
    · rw [List.map_cons, ih]

end EventTier

namespace Occupant

/-- The victims among some occupants. -/
def victims (high low : Nat) (os : List Occupant) : List Serial :=
  if total os < high then []
  else (EventTier.needed bytes low (total os) (os.mergeSort goesBefore)).map (·.serial)

/-- **Taking from the front of the order** takes the shortest beginning that is enough. -/
theorem evicts_victims {held : Occupant → Prop} {os : List Occupant}
    (hserials : (os.map (·.serial)).Nodup) (hheld : ∀ o, o ∈ os ↔ held o) (high low : Nat) :
    Evicts held high low (os.mergeSort goesBefore) (victims high low os) := by
  have hperm := List.mergeSort_perm os goesBefore
  have hserials' : ((os.mergeSort goesBefore).map (·.serial)).Nodup :=
    (hperm.map _).nodup_iff.mpr hserials
  have htotal : total os = total (os.mergeSort goesBefore) := ((hperm.map _).sum_eq).symm
  have hordered := precedes_mergeSort hserials
  have hlisted : ∀ o, o ∈ os.mergeSort goesBefore ↔ held o := fun o => hperm.mem_iff.trans (hheld o)
  rw [victims, htotal]
  generalize os.mergeSort goesBefore = order at hserials' hordered hlisted
  split
  · rename_i hbelow
    exact ⟨hlisted, hordered, fun _ => rfl, rfl, fun hhigh => absurd hbelow (Nat.not_lt.mpr hhigh),
      nofun, nofun⟩
  · rename_i hhigh
    have hshortest : ∀ n < (EventTier.needed bytes low (total order) order).length,
        low < total (order.drop n) := fun n hn => EventTier.lt_sum_drop hn
    obtain ⟨rest, horder, hrest⟩ := EventTier.exists_needed_append bytes low order
    rw [← total] at horder
    generalize EventTier.needed bytes low (total order) order = taken at horder hshortest
    have hlength : (taken.map (·.serial)).length = taken.length := List.length_map _
    refine ⟨hlisted, hordered, fun hbelow => absurd hbelow hhigh, ?_, fun _ => ?_, ?_, ?_⟩
    · rw [hlength, horder, List.take_left]
    · rw [hlength, horder, List.drop_left]
      exact hrest
    · rw [hlength]
      exact hshortest
    · intro o o' ho ho' hvictim hstays
      subst horder
      rw [List.map_append, List.nodup_append] at hserials'
      have htaken : o ∈ taken := by
        refine (List.mem_append.mp ((hlisted o).mpr ho)).resolve_right fun hmem => ?_
        exact hserials'.2.2 _ hvictim _ (List.mem_map_of_mem hmem) rfl
      have hstays' : o' ∈ rest := by
        refine (List.mem_append.mp ((hlisted o').mpr ho')).resolve_left fun hmem => ?_
        exact hstays (List.mem_map_of_mem hmem)
      exact (List.pairwise_append.mp hordered).2.2 o htaken o' hstays'

/-- The victims among what is counted, whatever it is. -/
theorem victims_map {α : Type} {occupant : α → Occupant} (le : α → α → Bool) {as : List α}
    (hle : ∀ a ∈ as, ∀ b ∈ as, le a b = goesBefore (occupant a) (occupant b)) (high low : Nat) :
    victims high low (as.map occupant) =
      if (as.map fun a => (occupant a).bytes).sum < high then []
      else (EventTier.needed (fun a => (occupant a).bytes) low
        (as.map fun a => (occupant a).bytes).sum (as.mergeSort le)).map
          fun a => (occupant a).serial := by
  have htotal : total (as.map occupant) = (as.map fun a => (occupant a).bytes).sum := by
    rw [total, List.map_map]
    rfl
  rw [victims, htotal, ← List.map_mergeSort hle, ← EventTier.map_needed, List.map_map]
  rfl

end Occupant

/-! ### Marking -/

namespace EventTier

/-- A whole record that was counted. -/
def Entry.occupant (e : Entry) : Occupant := ⟨e.serial, e.lastAccess, e.size⟩

theorem mark_eq {config : CollectionConfig} (hon : config.enabled = true) (c : Census) :
    mark c config =
      Occupant.victims config.highMark.toNat config.lowMark.toNat (c.live.map Entry.occupant) := by
  rw [mark, Occupant.victims_map Entry.goesBefore fun _ _ _ _ => rfl]
  refine if_congr ?_ rfl rfl
  simp only [hon, not_true_eq_false, false_or]
  rfl

/-- As `mark`, but without a result if more is to be taken away than there is. -/
def markExact (c : Census) (config : CollectionConfig) : Option (List Serial) :=
  if ¬ config.enabled ∨ c.total < config.highMark.toNat then some []
  else (neededExact Entry.size config.lowMark.toNat c.total
    (c.live.mergeSort Entry.goesBefore)).map fun victims => victims.map (·.serial)

/-- The bytes of the victims are never more than what is left. -/
theorem markExact_eq (c : Census) (config : CollectionConfig) :
    markExact c config = some (mark c config) := by
  have htotal : c.total = ((c.live.mergeSort Entry.goesBefore).map (·.size)).sum :=
    ((List.mergeSort_perm c.live _).map _).sum_eq.symm
  rw [markExact, mark]
  split
  · rfl
  · rw [htotal, neededExact_eq, Option.map_some]

end EventTier

namespace IndexTier

/-- A demoted record that was counted. -/
def Entry.occupant (e : Entry) : Occupant := ⟨e.serial, e.createdAt, e.bytes⟩

theorem mark_eq {config : CollectionConfig} (hon : config.enabled = true) (c : List Entry) :
    mark c config = Occupant.victims config.indexHighMark.toNat config.indexLowMark.toNat
      (c.map Entry.occupant) := by
  rw [mark, Occupant.victims_map Entry.goesBefore fun _ _ _ _ => rfl]
  refine if_congr ?_ rfl rfl
  simp only [hon, not_true_eq_false, false_or]
  rfl

/-- As `mark`, but without a result if more is to be taken away than there is. -/
def markExact (c : List Entry) (config : CollectionConfig) : Option (List Serial) :=
  if ¬ config.enabled ∨ total c < config.indexHighMark.toNat then some []
  else (EventTier.neededExact Entry.bytes config.indexLowMark.toNat (total c)
    (c.mergeSort Entry.goesBefore)).map fun victims => victims.map (·.serial)

/-- The bytes of the victims are never more than what is left. -/
theorem markExact_eq (c : List Entry) (config : CollectionConfig) :
    markExact c config = some (mark c config) := by
  have htotal : total c = ((c.mergeSort Entry.goesBefore).map (·.bytes)).sum :=
    ((List.mergeSort_perm c _).map _).sum_eq.symm
  rw [markExact, mark]
  split
  · rfl
  · rw [htotal, EventTier.neededExact_eq, Option.map_some]

end IndexTier

/-! ### What a database holds -/

namespace Database

/-- A whole record of one of some events: its time is the last access in its counter, and it takes
up its own key and value. -/
def HoldsWhole (db : Database) (es : List Event) (o : Occupant) : Prop :=
  ∃ e ∈ es, db.events.record? o.serial = some (StoredValue.encode e) ∧
    (∃ c : Counter, db.events.get? (Key.counter e.id o.serial) = some c.encode ∧
      o.time = c.lastAccess) ∧
    o.bytes = (Key.event o.serial).length + (StoredValue.encode e).length

/-- A demoted record of one of some events: its time is that of the event as its keys hold it, and
it takes up its index keys. -/
def HoldsDemoted (db : Database) (es : List Event) (o : Occupant) : Prop :=
  ∃ e ∈ es, db.events.record? o.serial = some e.id.bytes ∧ o.time = clampTime e.createdAt ∧
    o.bytes = ((distinct (Key.index e o.serial)).map List.length).sum

/-- **How a cycle chooses**, and what it leaves alone. -/
structure TakesFirst (db : Database) (es : List Event) (config : CollectionConfig) (demote : Bool)
    (victims pruned : List Serial) : Prop where
  records : ∃ order,
    Evicts (db.HoldsWhole es) config.highMark.toNat config.lowMark.toNat order victims
  /-- The indices are counted after the records were swept. -/
  indices : ∃ order, Evicts ((db.sweptRecords config demote).HoldsDemoted es)
    config.indexHighMark.toNat config.indexLowMark.toNat order pruned
  exactRecords : EventTier.markExact (EventTier.census db.events) config = some victims
  exactIndices : IndexTier.markExact
    (IndexTier.census (db.sweptRecords config demote).events) config = some pruned
  /-- The keys of a record that is no victim, and their values, stay. -/
  spared : ∀ s, s ∉ victims → s ∉ pruned → (db.events.record? s).isSome →
    ∀ key, Key.serial? key = some s →
      (db.collect config demote).2.events.get? key = db.events.get? key

namespace Represents
variable {db : Database} {L : Ledger} {es : List Event} {config : CollectionConfig} {o : Occupant}

section
variable (hdb : db.Represents L) (hid : Identified es) (hmem : ∀ s h, L s = some h → h.event ∈ es)
include hdb hid hmem

/-- A record that begins with the identifier of an event is one of that event. -/
theorem event_eq_of_record? {s : Serial} {v : Bytes} {e : Event} (he : e ∈ es)
    (hv : db.events.record? s = some v) (hbytes : StoredValue.idBytes? v = some e.id.bytes) :
    ∃ h, L s = some h ∧ h.record? = some v ∧ h.event = e := by
  obtain ⟨h, hL, hrec⟩ := hdb.events.record?_eq_some_iff.mp hv
  refine ⟨h, hL, hrec, hid _ (hmem s h hL) e he ?_⟩
  rw [Holding.idBytes?_of_record? hrec] at hbytes
  exact FixedBytes.ext_bytes (Option.some.inj hbytes)

theorem holdsWhole_iff : db.HoldsWhole es o ↔ ∃ e, L o.serial = some (.live e o.time) ∧
    o.bytes = (Key.event o.serial).length + (StoredValue.encode e).length := by
  constructor
  · rintro ⟨e, he, hv, ⟨c, hcounter, htime⟩, hbytes⟩
    obtain ⟨h, hL, hrec, rfl⟩ :=
      hdb.event_eq_of_record? hid hmem he hv (StoredValue.idBytes?_encode e)
    have hform := Holding.stub?_of_record? hrec
    rw [StoredValue.isStub_encode] at hform
    cases h with
    | live e t =>
      rw [hdb.events.get?_own (Key.serial?_counter _ _), hL, Option.bind_some,
        Holding.value?_counter, if_pos rfl] at hcounter
      have hdecode := congrArg Counter.decode (Option.some.inj hcounter)
      rw [Counter.decode_encode, Counter.decode_encode] at hdecode
      cases hdecode
      refine ⟨e, ?_, hbytes⟩
      rw [htime]
      exact hL
    | demoted e => cases hform
    | queued e => cases hform
  · rintro ⟨e, hL, hbytes⟩
    refine ⟨e, hmem _ _ hL, ?_, ⟨Counter.ofSize o.time (StoredValue.encode e).length, ?_, rfl⟩,
      hbytes⟩
    · rw [hdb.events.record?, hL]
      rfl
    · rw [hdb.events.get?_own (Key.serial?_counter _ _), hL, Option.bind_some,
        Holding.value?_counter]
      exact if_pos rfl

theorem holdsDemoted_iff : db.HoldsDemoted es o ↔ ∃ e, L o.serial = some (.demoted e) ∧
    o.time = clampTime e.createdAt ∧
      o.bytes = ((distinct (Key.index e o.serial)).map List.length).sum := by
  constructor
  · rintro ⟨e, he, hv, htime, hbytes⟩
    obtain ⟨h, hL, hrec, rfl⟩ :=
      hdb.event_eq_of_record? hid hmem he hv (StoredValue.idBytes?_id e.id)
    have hform := Holding.stub?_of_record? hrec
    rw [StoredValue.isStub_id] at hform
    cases h with
    | live e t => cases hform
    | demoted e => exact ⟨e, hL, htime, hbytes⟩
    | queued e => cases hform
  · rintro ⟨e, hL, htime, hbytes⟩
    refine ⟨e, hmem _ _ hL, ?_, htime, hbytes⟩
    rw [hdb.events.record?, hL]
    rfl

/-- **The records that are marked are the first of their order.** -/
theorem evicts_records (hon : config.enabled = true) : ∃ order,
    Evicts (db.HoldsWhole es) config.highMark.toNat config.lowMark.toNat order
      (EventTier.mark (EventTier.census db.events) config) := by
  rw [EventTier.mark_eq hon]
  refine ⟨_, Occupant.evicts_victims ?_ (fun o => ?_) _ _⟩
  · rw [List.map_map]
    exact EventTier.census_live_nodup hdb.events.recordKeys
  · rw [hdb.holdsWhole_iff hid hmem, List.mem_map]
    constructor
    · rintro ⟨entry, hentry, rfl⟩
      exact (EventTier.mem_census_live hdb.events).mp hentry
    · intro hheld
      exact ⟨⟨o.serial, o.bytes, o.time⟩, (EventTier.mem_census_live hdb.events).mpr hheld, rfl⟩

/-- **The indices that are marked are the first of their order.** -/
theorem evicts_indices (hon : config.enabled = true) : ∃ order,
    Evicts (db.HoldsDemoted es) config.indexHighMark.toNat config.indexLowMark.toNat order
      (IndexTier.mark (IndexTier.census db.events) config) := by
  rw [IndexTier.mark_eq hon]
  refine ⟨_, Occupant.evicts_victims ?_ (fun o => ?_) _ _⟩
  · rw [List.map_map]
    exact IndexTier.census_nodup db.events
  · rw [hdb.holdsDemoted_iff hid hmem, List.mem_map]
    constructor
    · rintro ⟨entry, hentry, rfl⟩
      exact (IndexTier.mem_census hdb.events).mp hentry
    · intro hheld
      exact ⟨⟨o.serial, o.time, o.bytes⟩, (IndexTier.mem_census hdb.events).mpr hheld, rfl⟩

end

/-- **A record that is no victim of either sweep keeps its keys.** -/
theorem get?_collect (hdb : db.Represents L) (config : CollectionConfig) (demote : Bool)
    {s : Serial} (hs : s ∉ EventTier.mark (EventTier.census db.events) config)
    (hs' : s ∉ IndexTier.mark (IndexTier.census (db.sweptRecords config demote).events) config)
    (hheld : (db.events.record? s).isSome) {key : Bytes} (hserial : Key.serial? key = some s) :
    (db.collect config demote).2.events.get? key = db.events.get? key := by
  have hfirst := hdb.recordsSwept (EventTier.mark (EventTier.census db.events) config) demote
  have hswept : (db.sweptRecords config demote).Represents
      (L.swept (EventTier.mark (EventTier.census db.events) config) demote) :=
    hdb.sweepRecords _ demote
  have hsecond := hswept.indicesSwept
    (IndexTier.mark (IndexTier.census (db.sweptRecords config demote).events) config)
  have hkept : ∀ key, Key.serial? key = some s →
      (db.sweptRecords config demote).events.get? key = db.events.get? key := by
    intro key hserial
    refine hfirst.kept key fun s' hs' hserial' => ?_
    obtain rfl := Option.some.inj (hserial.symm.trans hserial')
    exact absurd hs' hs
  obtain ⟨v, hv⟩ := Option.isSome_iff_exists.mp hheld
  have hv' : (db.sweptRecords config demote).events.record? s = some v := by
    rw [Keyspace.record?, hkept _ (Key.serial?_event s)]
    exact hv
  rw [← hkept key hserial]
  cases hstub : StoredValue.isStub v with
  | true => exact hsecond.spared s v hv' hstub hs' key hserial
  | false => exact hsecond.whole s v hv' hstub key hserial

end Represents
end Database

namespace Archive

/-- **The first go, and as few as will do.**  In every reachable archive, a cycle that has a size
limit takes from each tier the shortest beginning of its order that brings the rest within the low
mark, if the tier has reached its high mark, and nothing otherwise.  Whatever is no victim keeps its
keys and values. -/
theorem collect_takesFirst {es : List Event} {a : Archive} (ha : Reached es a)
    (hid : Identified es) {config : CollectionConfig} (hon : 0 < config.sizeLimit)
    (demote : Bool) :
    a.db.TakesFirst es config demote (EventTier.mark (EventTier.census a.db.events) config)
      (IndexTier.mark (IndexTier.census (a.db.sweptRecords config demote).events) config) := by
  obtain ⟨L, J, hf, hmem⟩ := ha.exists_follows hid
  have hdb : a.db.Represents L := hf.db
  have henabled : config.enabled = true := decide_eq_true hon
  have hswept : (a.db.sweptRecords config demote).Represents
      (L.swept (EventTier.mark (EventTier.census a.db.events) config) demote) :=
    hdb.sweepRecords _ demote
  have hmem' : ∀ s h, L.swept (EventTier.mark (EventTier.census a.db.events) config) demote s =
      some h → h.event ∈ es := by
    intro s h hL
    rcases L.swept_cases _ demote s with hsame | ⟨e, t, -, hL', -, hleft⟩
    · exact hmem s h (hsame ▸ hL)
    · -- what is left of a whole record is of the same event
      rw [hleft] at hL
      obtain rfl := Option.some.inj (Option.ite_none_right_eq_some.mp hL).2
      exact hmem s (.live e t) hL'
  exact {
    records := hdb.evicts_records hid hmem henabled
    indices := hswept.evicts_indices hid hmem' henabled
    exactRecords := EventTier.markExact_eq _ config
    exactIndices := IndexTier.markExact_eq _ config
    spared := fun s hs hs' hheld key hserial =>
      hdb.get?_collect config demote hs hs' hheld hserial }

/-- Of three notes the second was not accessed for the longest time, and after it the third; the
first one is whole after the cycle.  Of the two that are demoted the third is the older one, and its
keys go. -/
theorem collect_takesFirst_accessed :
    let es : List Event := [.uniform 1 7 30 1 [], .uniform 2 7 20 1 [], .uniform 3 7 10 1 []]
    let a := ((fresh.saveAll 9 (es.take 1)).saveAll 2 ((es.drop 1).take 1)).saveAll 5 (es.drop 2)
    let config : CollectionConfig := ⟨500, 40, 60, 300, 60, 80⟩
    config.validate = .ok () ∧ Reached es a ∧ a.db.TakesFirst es config true [1, 2] [2] := by
  intro es a config
  have ha : Reached es a := ((Reached.fresh.saveAll 9 (es.take 1)).saveAll 2
    ((es.drop 1).take 1)).saveAll 5 (es.drop 2)
  have hon : 0 < config.sizeLimit := by decide
  have hcensus : EventTier.census a.db.events =
      ⟨[⟨0, 142, 9⟩, ⟨1, 142, 2⟩, ⟨2, 142, 5⟩], 0⟩ := by decide +kernel
  have hmark : EventTier.mark (EventTier.census a.db.events) config = [1, 2] := by
    rw [hcensus]
    cbv
  have hindices : IndexTier.census (a.db.sweptRecords config true).events =
      [⟨1, 20, 105⟩, ⟨2, 10, 105⟩] := by
    rw [Database.sweptRecords, hmark]
    decide +kernel
  have hpruned : IndexTier.mark (IndexTier.census (a.db.sweptRecords config true).events) config =
      [2] := by
    rw [hindices]
    cbv
  have htakes := collect_takesFirst ha (by decide +kernel) hon true
  rw [hmark, hpruned] at htakes
  exact ⟨rfl, ha, htakes⟩

end Archive
end EventArchive
