import EventArchive.Collection.IndexTier
import EventArchive.Proofs.Saving

/-! # Sweeps, as changes of the ledger

A sweep looks at each of its victims again before it acts.  A sweep of records
demotes or removes those that are whole by then, and passes over all others
(`Ledger.swept`).  A sweep of the indices clears the victims that are demoted by
then, and everything that is queued (`Ledger.pruned`).  So what a sweep does is
decided by the ledger at that moment, however old its list of victims is.
-/
namespace EventArchive

/-! ### Sweeping records -/

/-- What is left of a holding when its record is swept. Only a whole record that can be read is
demoted or removed. -/
def Holding.swept (demote : Bool) : Holding → Option Holding
  | .live e t =>
    match StoredValue.decode (StoredValue.encode e) with
    | .ok _ => if demote then some (.demoted e) else none
    | .error _ => some (.live e t)
  | .demoted e => some (.demoted e)
  | .queued e => some (.queued e)

/-- A ledger after the records of some serials were swept. -/
def Ledger.swept (L : Ledger) (victims : List Serial) (demote : Bool) : Ledger :=
  fun s => if s ∈ victims then (L s).bind (Holding.swept demote) else L s

/-- **What sweeping can do to a holding**: nothing, or what a sweep does to a whole record that it
has read. -/
theorem Holding.swept_cases (demote : Bool) (h : Holding) : h.swept demote = some h ∨
    ∃ e t, h = .live e t ∧ StoredValue.decode (StoredValue.encode e) = .ok (.full e) ∧
      h.swept demote = if demote then some (.demoted e) else none := by
  cases h with
  | live e t =>
    rw [swept]
    cases hd : StoredValue.decode (StoredValue.encode e) with
    | error err => exact .inl rfl
    | ok v =>
      obtain rfl := StoredValue.eq_full_of_decode_encode hd
      exact .inr ⟨e, t, rfl, hd, rfl⟩
  | demoted e => exact .inl rfl
  | queued e => exact .inl rfl

/-- Sweeping again does nothing more. -/
theorem Holding.swept_bind_swept (demote : Bool) (h : Holding) :
    (h.swept demote).bind (Holding.swept demote) = h.swept demote := by
  rcases h.swept_cases demote with hsame | ⟨e, t, -, -, hswept⟩
  · rw [hsame, Option.bind_some, hsame]
  · rw [hswept]
    cases demote <;> rfl

namespace Ledger
variable {L : Ledger} {s : Serial} {victims : List Serial} {demote : Bool}

/-- What is held under a serial after a sweep: what was held, or what is left of a victim that was
whole. -/
theorem swept_cases (L : Ledger) (victims : List Serial) (demote : Bool) (s : Serial) :
    L.swept victims demote s = L s ∨ ∃ e t, s ∈ victims ∧ L s = some (.live e t) ∧
      StoredValue.decode (StoredValue.encode e) = .ok (.full e) ∧
      L.swept victims demote s = if demote then some (.demoted e) else none := by
  rw [swept]
  split
  · rename_i hs
    cases hL : L s with
    | none => exact .inl rfl
    | some h =>
      rcases h.swept_cases demote with hsame | ⟨e, t, rfl, hread, hswept⟩
      · exact .inl hsame
      · exact .inr ⟨e, t, hs, rfl, hread, hswept⟩
  · exact .inl rfl

theorem swept_singleton (L : Ledger) (s : Serial) (demote : Bool) :
    L.swept [s] demote = Function.update L s ((L s).bind (Holding.swept demote)) := by
  funext s'
  by_cases heq : s' = s
  · subst heq
    simp [swept]
  · simp [swept, heq]

/-- Sweeping a holding that is passed over changes nothing. -/
theorem swept_eq_self (hL : (L s).bind (Holding.swept demote) = L s) : L.swept [s] demote = L := by
  rw [swept_singleton, hL, Function.update_eq_self]

/-- Victims may be swept one after the other. -/
theorem swept_cons (L : Ledger) (s : Serial) (victims : List Serial) (demote : Bool) :
    L.swept (s :: victims) demote = (L.swept [s] demote).swept victims demote := by
  funext s'
  by_cases heq : s' = s
  · subst heq
    simp [swept, Option.bind_assoc, Holding.swept_bind_swept]
  · simp [swept, heq]

/-- What waits for a sweep of the indices is left waiting. -/
theorem swept_eq_queued_iff (s : Serial) :
    (∃ e, L.swept victims demote s = some (.queued e)) ↔ ∃ e, L s = some (.queued e) := by
  rcases L.swept_cases victims demote s with hsame | ⟨e, t, -, hL, -, hswept⟩
  · rw [hsame]
  · rw [hswept, hL]
    cases demote <;> simp

end Ledger

namespace Keyspace.Renders
variable {L : Ledger}

/-- Sweeping one victim. -/
theorem sweepOne {r : EventTier.Swept × Database} (hr : r.2.events.Renders L) (demote : Bool)
    (s : Serial) : (EventTier.sweepOne demote r s).2.events.Renders (L.swept [s] demote) := by
  have hself : ∀ o, L s = o → o.bind (Holding.swept demote) = o → L.swept [s] demote = L := by
    rintro o rfl hsame
    exact Ledger.swept_eq_self hsame
  rw [EventTier.sweepOne, hr.record? s]
  cases hL : L s with
  | none => rwa [hself none hL rfl]
  | some h =>
    cases h with
    | live e t =>
      rw [Option.bind_some, Holding.record?, Option.map_some]
      cases hd : StoredValue.decode (StoredValue.encode e) with
      | error err => rwa [hself _ hL (by rw [Option.bind_some, Holding.swept, hd])]
      | ok v =>
        obtain rfl := StoredValue.eq_full_of_decode_encode hd
        rw [Ledger.swept_singleton, hL, Option.bind_some, Holding.swept, hd]
        cases demote with
        | true => exact hr.demoteRecord hL
        | false =>
          have hremoved := hr.removeRecord hL
          exact hremoved
    | demoted e =>
      rw [Option.bind_some, Holding.record?, Option.map_some, StoredValue.decode_id]
      rwa [hself _ hL rfl]
    | queued e => rwa [hself _ hL rfl]

/-- **A sweep of records** sweeps the ledger. -/
theorem sweep {db : Database} (hr : db.events.Renders L) (victims : List Serial)
    (demote : Bool) : (EventTier.sweep db victims demote).2.events.Renders
      (L.swept victims demote) := by
  have hfold : ∀ (r : EventTier.Swept × Database) (L : Ledger), r.2.events.Renders L →
      (victims.foldl (EventTier.sweepOne demote) r).2.events.Renders
        (L.swept victims demote) := by
    induction victims with
    | nil => exact fun r L hr => hr
    | cons s victims ih =>
      intro r L hr
      rw [List.foldl_cons, Ledger.swept_cons]
      exact ih _ _ (hr.sweepOne demote s)
  exact hfold (⟨0, 0⟩, db) L hr

end Keyspace.Renders

/-- A sweep of records leaves the queue and the settings. -/
theorem EventTier.tables_sweep (db : Database) (victims : List Serial) (demote : Bool) :
    (sweep db victims demote).2.purge = db.purge ∧
      (sweep db victims demote).2.settings = db.settings := by
  have hone : ∀ (r : Swept × Database) (s : Serial),
      (sweepOne demote r s).2.purge = r.2.purge ∧
        (sweepOne demote r s).2.settings = r.2.settings := by
    intro r s
    rw [sweepOne]
    split
    · split <;> exact ⟨rfl, rfl⟩
    · exact ⟨rfl, rfl⟩
  have hfold : ∀ r : Swept × Database,
      (victims.foldl (sweepOne demote) r).2.purge = r.2.purge ∧
        (victims.foldl (sweepOne demote) r).2.settings = r.2.settings := by
    induction victims with
    | nil => exact fun r => ⟨rfl, rfl⟩
    | cons s victims ih =>
      intro r
      rw [List.foldl_cons, (ih _).1, (ih _).2]
      exact hone r s
  exact hfold (⟨0, 0⟩, db)

/-! ### Sweeping indices -/

/-- What is left of a holding when the indices are swept, and it is a victim or not. -/
def Holding.pruned (victim : Bool) : Holding → Option Holding
  | .live e t => some (.live e t)
  | .demoted e => if victim then none else some (.demoted e)
  | .queued _ => none

/-- A ledger after the indices of some serials were swept. -/
def Ledger.pruned (L : Ledger) (victims : List Serial) : Ledger :=
  fun s => (L s).bind (Holding.pruned (victims.contains s))

/-- **What is left after a sweep of the indices** was held before, and is no victim that is demoted
and nothing that is queued. -/
theorem Ledger.pruned_eq_some_iff {L : Ledger} {victims : List Serial} {s : Serial} {h : Holding} :
    L.pruned victims s = some h ↔
      L s = some h ∧ ¬ (s ∈ victims ∧ h.stub? = some true) ∧ h.stub?.isSome := by
  rw [pruned, Option.bind_eq_some_iff]
  constructor
  · rintro ⟨h', hL, hpruned⟩
    cases h' with
    | live e t =>
      cases hpruned
      refine ⟨hL, ?_, rfl⟩
      rintro ⟨-, ⟨⟩⟩
    | demoted e =>
      obtain ⟨hout, hpruned⟩ := Option.ite_none_left_eq_some.mp hpruned
      cases hpruned
      exact ⟨hL, fun hvictim => hout (List.contains_iff_mem.mpr hvictim.1), rfl⟩
    | queued e => cases hpruned
  · rintro ⟨hL, hout, hheld⟩
    refine ⟨h, hL, ?_⟩
    cases h with
    | live e t => rfl
    | demoted e =>
      rw [Holding.pruned, if_neg]
      exact fun hmem => hout ⟨List.contains_iff_mem.mp hmem, rfl⟩
    | queued e => cases hheld

/-- A sweep of the indices clears what is queued and the victims that are demoted. -/
theorem IndexTier.contains_doomed (db : Database) (victims : List Serial) (s : Serial) :
    (IndexTier.doomed db victims).contains s = true ↔
      (s ∈ victims ∧ (db.events.record? s).any StoredValue.isStub = true) ∨
        db.purge.contains s = true := by
  have hfold : ∀ (ss : List Serial) (m : SortedMap Serial Unit),
      (ss.foldl (fun m s => m.insert s ()) m).contains s = true ↔ s ∈ ss ∨ m.contains s = true := by
    intro ss
    induction ss with
    | nil => simp
    | cons s' ss ih =>
      intro m
      rw [List.foldl_cons, ih]
      by_cases heq : s = s' <;> simp [SortedMap.contains, heq]
  rw [IndexTier.doomed, hfold, List.mem_filter]

/-- A sweep of the indices leaves the settings. -/
theorem IndexTier.settings_sweep (db : Database) (victims : List Serial) :
    (sweep db victims).2.settings = db.settings := by
  rw [sweep]
  dsimp only
  split <;> rfl

namespace Database.Represents
variable {db : Database} {L : Ledger}

/-- **A sweep of records** sweeps the ledger. -/
theorem sweepRecords (hdb : db.Represents L) (victims : List Serial) (demote : Bool) :
    (EventTier.sweep db victims demote).2.Represents (L.swept victims demote) := by
  refine ⟨hdb.events.sweep victims demote, fun s => ?_⟩
  rw [(EventTier.tables_sweep db victims demote).1, Ledger.swept_eq_queued_iff]
  exact hdb.purge s

/-- The serials that a sweep of the indices clears are those that it takes out of the ledger. -/
theorem pruned_eq (hdb : db.Represents L) (victims : List Serial) :
    L.pruned victims = fun s => if (IndexTier.doomed db victims).contains s then none else L s := by
  funext s
  have hdoomed := IndexTier.contains_doomed db victims s
  rw [hdb.purge, hdb.events.record?] at hdoomed
  rw [Ledger.pruned]
  cases hL : L s with
  | none => rw [Option.bind_none, ite_self]
  | some h =>
    cases h with
    | live e t =>
      rw [if_neg (mt hdoomed.mp (by simp [hL, Holding.record?, StoredValue.isStub_encode]))]
      rfl
    | demoted e =>
      rw [Option.bind_some, Holding.pruned]
      refine if_congr ?_ rfl rfl
      rw [hdoomed, List.contains_iff_mem]
      simp [hL, Holding.record?, StoredValue.isStub_id]
    | queued e =>
      rw [if_pos (hdoomed.mpr (.inr ⟨e, hL⟩))]
      rfl

/-- **A sweep of the indices** prunes the ledger. -/
theorem sweepIndices (hdb : db.Represents L) (victims : List Serial) :
    (IndexTier.sweep db victims).2.Represents (L.pruned victims) := by
  have hqueued : ∀ s e, L.pruned victims s ≠ some (.queued e) := by
    intro s e hL'
    obtain ⟨-, -, hheld⟩ := Ledger.pruned_eq_some_iff.mp hL'
    cases hheld
  have heq := hdb.pruned_eq victims
  rw [IndexTier.sweep]
  dsimp only
  split
  · rename_i hempty
    -- nothing is doomed, so the ledger is left as it is
    have hself : L.pruned victims = L := by
      rw [heq]
      funext s
      rw [SortedMap.contains, SortedMap.isEmpty_iff.mp hempty s]
      exact if_neg Bool.false_ne_true
    rw [hself]
    exact hdb
  · refine ⟨?_, fun s => ⟨fun h => (Bool.false_ne_true h).elim, ?_⟩⟩
    · rw [heq]
      apply hdb.events.purgeSerials
      intro s hd e t hL
      have hkept : L.pruned victims s = some (.live e t) := by
        rw [Ledger.pruned, hL]
        rfl
      rw [heq] at hkept
      exact (Option.ite_none_left_eq_some.mp hkept).1 hd
    · rintro ⟨e, hL'⟩
      exact absurd hL' (hqueued s e)

end Database.Represents
end EventArchive
