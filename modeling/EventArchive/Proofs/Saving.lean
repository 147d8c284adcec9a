import EventArchive.Proofs.Lookup

/-! # Saving and deleting, as changes of the ledger

A database represents a ledger if its key space renders it and its queue holds
the serials of the displaced events.  Saving an event does one of five things to
the ledger, and which of them is decided by the holdings of the same identifier
and of the same slot alone.
-/
namespace EventArchive

/-- The tables of a database are those of a ledger. -/
structure Database.Represents (db : Database) (L : Ledger) : Prop where
  events : db.events.Renders L
  purge : ∀ s, db.purge.contains s = true ↔ ∃ e, L s = some (.queued e)

/-! ### Clearing a slot -/

/-- What is left of a holding when a newer version displaces it. -/
def Holding.displaced : Holding → Option Holding
  | .live _ _ => none
  | .demoted e => some (.queued e)
  | .queued e => some (.queued e)

/-- A ledger after some serials were displaced. -/
def Ledger.displace (L : Ledger) (ss : List Serial) : Ledger :=
  fun s => if s ∈ ss then (L s).bind Holding.displaced else L s

/-- The records that are left are those that were not displaced. -/
theorem Ledger.displace_eq_some_iff {L : Ledger} {s : Serial} {ss : List Serial} {h : Holding}
    (hheld : h.stub?.isSome) : L.displace ss s = some h ↔ L s = some h ∧ s ∉ ss := by
  rw [displace]
  split
  · rename_i hmem
    refine ⟨fun hL => ?_, fun hL => absurd hmem hL.2⟩
    -- what is left of a displaced holding is no record
    obtain ⟨h', -, hdisplaced⟩ := Option.bind_eq_some_iff.mp hL
    cases h' <;> cases hdisplaced <;> cases hheld
  · rename_i hmem
    exact ⟨fun hL => ⟨hL, hmem⟩, fun hL => hL.1⟩

theorem Ledger.displace_cons {L : Ledger} {s : Serial} {ss : List Serial} {h : Holding}
    (hL : L s = some h) (hs : s ∉ ss) :
    Ledger.displace (Function.update L s h.displaced) ss = L.displace (s :: ss) := by
  funext s'
  by_cases heq : s' = s
  · subst heq
    simp [displace, hs, hL]
  · simp [displace, heq]

namespace Database.Represents
variable {db : Database} {L : Ledger} {e : Event} {p : Prior} {h : Holding}

/-- The queue of a ledger that changes at one serial. -/
theorem contains_update {Q : SortedMap Serial Unit} {o : Option Holding} {s : Serial}
    (hQ : ∀ s', s' ≠ s → (Q.contains s' = true ↔ ∃ e, L s' = some (.queued e)))
    (hs : Q.contains s = true ↔ ∃ e, o = some (.queued e)) (s' : Serial) :
    Q.contains s' = true ↔ ∃ e, Function.update L s o s' = some (.queued e) := by
  by_cases heq : s' = s
  · subst heq
    rw [Function.update_self, hs]
  · rw [Function.update_of_ne heq, hQ s' heq]

/-- Removing a version of a slot displaces its holding. -/
theorem removePrior (hdb : db.Represents L) (hL : L p.serial = some h) (hc : h.RivalOf e)
    (hshown : h.shown? = some p.record) :
    (db.removePrior e p).Represents (Function.update L p.serial h.displaced) := by
  obtain ⟨slot, hslot, hc⟩ := hc
  cases h with
  | live e' t =>
    have hrecord : p.record = .full e' := (Option.some.inj hshown).symm
    have hevents := hdb.events.removeRecord hL
    simp only [Database.removePrior, hrecord]
    refine ⟨hevents, contains_update (fun s _ => hdb.purge s) ?_⟩
    rw [hdb.purge, hL]
    simp [Holding.displaced]
  | demoted e' =>
    have hrecord : p.record = .stub e'.id (timeOfClamped (clampTime e'.createdAt)) :=
      (Option.some.inj hshown).symm
    obtain ⟨-, hhead, hkind⟩ := hc
    obtain ⟨hpubkey, hkind'⟩ := Event.slot?_eq_some hslot
    simp only [Database.removePrior, hrecord]
    refine ⟨?_, contains_update (fun s hs => ?_) ?_⟩
    · rw [← hkind', ← hkind]
      exact hdb.events.eraseUntagged hL (hpubkey ▸ hhead)
    · rw [← hdb.purge]
      simp [SortedMap.contains, hs]
    · simp [SortedMap.contains, Holding.displaced]
  | queued e' => exact hc.elim

/-- Removing versions one after the other displaces all of them. -/
theorem clear {ps : List Prior} (hdb : db.Represents L) (hnodup : (ps.map (·.serial)).Nodup)
    (hps : ∀ p ∈ ps, ∃ h, L p.serial = some h ∧ h.RivalOf e ∧ h.shown? = some p.record) :
    (ps.foldl (·.removePrior e ·) db).Represents (L.displace (ps.map (·.serial))) := by
  induction ps generalizing db L with
  | nil =>
    have hself : L.displace [] = L := by
      funext s
      simp [Ledger.displace]
    rw [List.map_nil, hself]
    exact hdb
  | cons p ps ih =>
    rw [List.map_cons, List.nodup_cons] at hnodup
    obtain ⟨h, hL, hc, hshown⟩ := hps p List.mem_cons_self
    rw [List.foldl_cons, List.map_cons, ← Ledger.displace_cons hL hnodup.1]
    refine ih (hdb.removePrior hL hc hshown) hnodup.2 fun p' hp' => ?_
    -- the serials differ, so the other versions are still there
    have hne : p'.serial ≠ p.serial := fun heq =>
      hnodup.1 (heq ▸ List.mem_map_of_mem hp')
    rw [Function.update_of_ne hne]
    exact hps p' (List.mem_cons_of_mem _ hp')

theorem clear_rivals (hdb : db.Represents L) (e : Event) :
    ((db.events.rivals e).foldl (·.removePrior e ·) db).Represents
      (L.displace ((db.events.rivals e).map (·.serial))) :=
  hdb.clear (hdb.events.rivals_nodup e) fun _ hp => hdb.events.rivals_sound hp

/-- A ledger determines the tables it is about. -/
theorem tables_eq {db' : Database} (hdb : db.Represents L) (hdb' : db'.Represents L) :
    db'.events = db.events ∧ db'.purge = db.purge := by
  refine ⟨SortedMap.ext_get? fun key => ?_, SortedMap.ext_get? fun s => ?_⟩
  · rw [hdb'.events, hdb.events]
  · have hsame : db'.purge.contains s = db.purge.contains s := by
      rw [Bool.eq_iff_iff, hdb'.purge, hdb.purge]
    rw [SortedMap.contains, SortedMap.contains] at hsame
    cases h : db.purge.get? s <;> cases h' : db'.purge.get? s <;> simp_all

end Database.Represents

/-! ### Saving -/

/-- **What saving an event does to a ledger**, given the rivals that were found and the serial a
new event would take. -/
inductive Ledger.Saved (L : Ledger) (rivals : List Prior) (now : UInt64) (e : Event) (s : Serial) :
    SaveOutcome → Ledger → Prop
  | ephemeral (hkind : e.kind.retention = .ephemeral) : Saved L rivals now e s .ephemeral L
  | duplicate {s' : Serial} {e' : Event} {t : UInt64} (hkind : e.kind.retention ≠ .ephemeral)
      (hL : L s' = some (.live e' t)) (hid : e'.id = e.id) : Saved L rivals now e s .duplicate L
  | revived {s' : Serial} (hkind : e.kind.retention ≠ .ephemeral)
      (hL : L s' = some (.demoted e)) :
      Saved L rivals now e s .revived (Function.update L s' (some (.live e now)))
  | superseded {p : Prior} (hkind : e.kind.retention ≠ .ephemeral)
      (hnew : ∀ s h, L s = some h → h.stub?.isSome → h.event.id ≠ e.id)
      (hp : p ∈ rivals) (hstays : p.yieldsTo e = false) : Saved L rivals now e s .superseded L
  | stored (hkind : e.kind.retention ≠ .ephemeral)
      (hnew : ∀ s h, L s = some h → h.stub?.isSome → h.event.id ≠ e.id)
      (hyield : ∀ p ∈ rivals, p.yieldsTo e = true) :
      Saved L rivals now e s .stored
        (Function.update (L.displace (rivals.map (·.serial))) s (some (.live e now)))

namespace Database

/-- Removing versions of a slot leaves the settings. -/
theorem settings_clear (db : Database) (e : Event) (ps : List Prior) :
    (ps.foldl (·.removePrior e ·) db).settings = db.settings := by
  induction ps generalizing db with
  | nil => rfl
  | cons p ps ih =>
    rw [List.foldl_cons, ih, removePrior]
    split <;> rfl

theorem settings_saveAs (db : Database) (now : UInt64) (s : Serial) (e : Event) :
    (db.saveAs now s e).2.settings = db.settings := by
  rw [saveAs]
  split
  · rfl
  · rfl
  · dsimp only
    split
    · exact settings_clear db e _
    · rfl

namespace Represents
variable {db : Database} {L : Ledger} {e : Event} {s : Serial}

/-- Saving an event under an unused serial, if no other event has its identifier. -/
theorem saveAs (hdb : db.Represents L) (hu : L.Unique) (hs : L s = none)
    (hkind : e.kind.retention ≠ .ephemeral)
    (hsame : ∀ s h, L s = some h → h.event.id = e.id → h.event = e) (now : UInt64) :
    ∃ L', L.Saved (db.events.rivals e) now e s (db.saveAs now s e).1 L' ∧
      (db.saveAs now s e).2.Represents L' := by
  rw [Database.saveAs]
  split
  · rename_i s' hfound
    obtain ⟨h, hL, hid, hstub⟩ := (hdb.events.locate_eq_some_iff hu).mp hfound
    cases h with
    | live e' t => exact ⟨L, .duplicate hkind hL hid, hdb⟩
    | demoted e' => cases hstub
    | queued e' => cases hstub
  · rename_i s' hfound
    obtain ⟨h, hL, hid, hstub⟩ := (hdb.events.locate_eq_some_iff hu).mp hfound
    cases h with
    | live e' t => cases hstub
    | demoted e' =>
      obtain rfl : e' = e := hsame s' _ hL hid
      refine ⟨_, .revived hkind hL, hdb.events.putRecord hL now,
        contains_update (fun s _ => hdb.purge s) ?_⟩
      rw [hdb.purge, hL]
      simp
    | queued e' => cases hstub
  · rename_i hfound
    have hnew := (hdb.events.locate_eq_none_iff hu).mp hfound
    have hcleared := hdb.clear_rivals e
    dsimp only
    split
    · rename_i hyield
      refine ⟨_, .stored hkind hnew (List.all_eq_true.mp hyield), ?_⟩
      have hfree : L.displace ((db.events.rivals e).map (·.serial)) s = none := by
        rw [Ledger.displace, hs]
        exact ite_self _
      refine ⟨hcleared.events.insertRecord hfree now e,
        contains_update (fun s _ => hcleared.purge s) ?_⟩
      rw [hcleared.purge, hfree]
      simp
    · rename_i hstays
      obtain ⟨p, hp, hpstays⟩ := List.all_eq_false.mp (Bool.eq_false_iff.mpr hstays)
      exact ⟨L, .superseded hkind hnew hp (Bool.eq_false_iff.mpr hpstays), hdb⟩

end Represents
end Database
end EventArchive
