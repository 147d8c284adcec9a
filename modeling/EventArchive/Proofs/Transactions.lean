import EventArchive.Proofs.Leases
import EventArchive.Proofs.SweptLedger

/-! # Runs of write transactions

A tier is its tables and the serials it may give out.  Everything that changes
it is one of eight transactions, in any order: saving and deleting, noting
accesses, the two sweeps with any victims, returning the lease, and opening the
tables again with or without having returned it.  Along every such run the
tables represent a ledger, and every event of the ledger is one that was saved
under its serial (`Tier.Follows`).
-/
namespace EventArchive

/-! ### Tiers and transactions -/

/-- The tables of a tier, and the serials it may give out. -/
structure Tier where
  db : Database
  lease : Lease
  deriving DecidableEq

/-- What changes the tables of a tier. -/
inductive Transaction where
  | save (now : UInt64) (event : Event)
  | delete (event : Event)
  /-- Note a batch of accesses. -/
  | touch (batch : List Access) (now : UInt64)
  /-- Sweep the records of some serials, demoting or deleting them. -/
  | sweepRecords (victims : List Serial) (demote : Bool)
  /-- Sweep the indices of what is queued and of some serials. -/
  | sweepIndices (victims : List Serial)
  /-- Return the rest of the lease. -/
  | release
  /-- Close the tables and open them again, leasing so many serials at a time. -/
  | reopen (batch : UInt64)
  /-- Open the tables again without having closed them. -/
  | crash (batch : UInt64)
  deriving DecidableEq

/-- The event that a transaction is given. -/
def Transaction.event? : Transaction → Option Event
  | .save _ e => some e
  | .delete e => some e
  | _ => none

namespace Tier

/-- Begin to use the tables of a database, unless they are of another version. -/
def start (db : Database) (batch : UInt64) : Tier :=
  match db.prepare with
  | .ok db => ⟨db, Lease.resume db batch⟩
  | .error _ => ⟨db, Lease.resume db batch⟩

/-- A tier of a new database. -/
def fresh (batch : UInt64) : Tier := start .empty batch

/-- Return the rest of the lease. -/
def release (t : Tier) : Tier :=
  let (lease, db) := t.lease.release t.db
  ⟨db, lease⟩

/-- The tier after a transaction. -/
def step (t : Tier) : Transaction → Tier
  | .save now e =>
    let (_, lease, db) := t.db.save t.lease now e
    ⟨db, lease⟩
  | .delete e => { t with db := (t.db.delete e).2 }
  | .touch batch now => { t with db := { t.db with events := t.db.events.touchOrDrop batch now } }
  | .sweepRecords victims demote => { t with db := (EventTier.sweep t.db victims demote).2 }
  | .sweepIndices victims => { t with db := (IndexTier.sweep t.db victims).2 }
  | .release => t.release
  | .reopen batch => start t.release.db batch
  | .crash batch => start t.db batch

/-- The tier after some transactions. -/
def run (t : Tier) (xs : List Transaction) : Tier := xs.foldl step t

/-- The event that a transaction stores, under the next serial of the lease. -/
def stored? (t : Tier) : Transaction → Option (Serial × Event)
  | .save now e =>
    match (t.db.save t.lease now e).1 with
    | .ok .stored => some (t.lease.next, e)
    | _ => none
  | _ => none

/-- The events that some transactions store, with their serials. -/
def journal (t : Tier) : List Transaction → List (Serial × Event)
  | [] => []
  | x :: xs => (t.stored? x).toList ++ (t.step x).journal xs

end Tier

/-- Events with one identifier are the same, as the identifier is a hash of the contents. -/
def Identified (es : List Event) : Prop := ∀ a ∈ es, ∀ b ∈ es, a.id = b.id → a = b

instance (es : List Event) : Decidable (Identified es) :=
  inferInstanceAs (Decidable (∀ a ∈ es, ∀ b ∈ es, a.id = b.id → a = b))

/-- An event whose binary fields repeat one byte each. -/
def Event.uniform (id author : UInt8) (createdAt : Int64) (kind : UInt16) (tags : List Tag) :
    Event where
  id := ⟨List.replicate 32 id, rfl⟩
  pubkey := ⟨List.replicate 32 author, rfl⟩
  createdAt := createdAt
  kind := ⟨kind⟩
  tags := tags
  content := ""
  sig := ⟨List.replicate 64 0, rfl⟩

/-! ### What runs keep -/

/-- Everything that is held in one ledger was held in another one. -/
def Ledger.Within (L' L : Ledger) : Prop :=
  ∀ s h', L' s = some h' → ∃ h, L s = some h ∧ h.event = h'.event ∧
    (h'.stub?.isSome → h.stub?.isSome)

namespace Ledger.Within
variable {L L' L'' : Ledger} {s : Serial} {h : Holding}

theorem refl (L : Ledger) : L.Within L := fun _ h' hL => ⟨h', hL, rfl, id⟩

theorem trans (h₁ : L''.Within L') (h₂ : L'.Within L) : L''.Within L := by
  intro s h'' hL''
  obtain ⟨h', hL', he', hheld'⟩ := h₁ s h'' hL''
  obtain ⟨h, hL, he, hheld⟩ := h₂ s h' hL'
  exact ⟨h, hL, he.trans he', hheld ∘ hheld'⟩

/-- A holding of the same event takes the place of a record. -/
theorem update {h' : Holding} (hL : L s = some h) (he : h.event = h'.event)
    (hheld : h'.stub?.isSome → h.stub?.isSome) :
    Ledger.Within (Function.update L s (some h')) L := by
  intro s' h'' hL''
  by_cases heq : s' = s
  · subst heq
    rw [Function.update_self] at hL''
    cases hL''
    exact ⟨h, hL, he, hheld⟩
  · rw [Function.update_of_ne heq] at hL''
    exact ⟨h'', hL'', rfl, id⟩

theorem remove (L : Ledger) (s : Serial) : Ledger.Within (Function.update L s none) L := by
  intro s' h' hL'
  by_cases heq : s' = s
  · subst heq
    rw [Function.update_self] at hL'
    cases hL'
  · rw [Function.update_of_ne heq] at hL'
    exact ⟨h', hL', rfl, id⟩

theorem displace (L : Ledger) (ss : List Serial) : (L.displace ss).Within L := by
  intro s h' hL'
  rw [Ledger.displace] at hL'
  split at hL'
  · obtain ⟨h, hL, hdisplaced⟩ := Option.bind_eq_some_iff.mp hL'
    refine ⟨h, hL, ?_⟩
    cases h <;> cases hdisplaced
    · exact ⟨rfl, fun hheld => by cases hheld⟩
    · exact ⟨rfl, id⟩
  · exact ⟨h', hL', rfl, id⟩

theorem sweep (L : Ledger) (victims : List Serial) (demote : Bool) :
    (L.swept victims demote).Within L := by
  intro s h' hL'
  rcases L.swept_cases victims demote s with hsame | ⟨e, t, -, hL, -, hswept⟩
  · rw [hsame] at hL'
    exact ⟨h', hL', rfl, id⟩
  · rw [hswept] at hL'
    obtain ⟨-, hL'⟩ := Option.ite_none_right_eq_some.mp hL'
    obtain rfl := Option.some.inj hL'
    exact ⟨_, hL, rfl, fun _ => rfl⟩

theorem prune (L : Ledger) (victims : List Serial) : (L.pruned victims).Within L := by
  intro s h' hL'
  exact ⟨h', (Ledger.pruned_eq_some_iff.mp hL').1, rfl, id⟩

theorem unique (hw : L'.Within L) (hu : L.Unique) : L'.Unique := by
  intro s₁ s₂ h₁' h₂' hL₁' hL₂' hheld₁ hheld₂ hid
  obtain ⟨h₁, hL₁, he₁, hk₁⟩ := hw s₁ h₁' hL₁'
  obtain ⟨h₂, hL₂, he₂, hk₂⟩ := hw s₂ h₂' hL₂'
  exact hu s₁ s₂ h₁ h₂ hL₁ hL₂ (hk₁ hheld₁) (hk₂ hheld₂) (by rw [he₁, he₂, hid])

end Ledger.Within

/-- Every whole record of one ledger is one of another. -/
def Ledger.Fades (L' L : Ledger) : Prop :=
  ∀ s e t', L' s = some (.live e t') → ∃ t, L s = some (.live e t)

namespace Ledger.Fades
variable {L L' L'' : Ledger}

theorem refl (L : Ledger) : L.Fades L := fun _ _ t hL => ⟨t, hL⟩

theorem trans (h₁ : L''.Fades L') (h₂ : L'.Fades L) : L''.Fades L := by
  intro s e t'' hL''
  obtain ⟨t', hL'⟩ := h₁ s e t'' hL''
  exact h₂ s e t' hL'

theorem remove (L : Ledger) (s : Serial) : Ledger.Fades (Function.update L s none) L := by
  intro s' e t' hL'
  by_cases heq : s' = s
  · subst heq
    rw [Function.update_self] at hL'
    cases hL'
  · rw [Function.update_of_ne heq] at hL'
    exact ⟨t', hL'⟩

theorem displace (L : Ledger) (ss : List Serial) : (L.displace ss).Fades L := by
  intro s e t' hL'
  rw [Ledger.displace] at hL'
  split at hL'
  · obtain ⟨h, -, hdisplaced⟩ := Option.bind_eq_some_iff.mp hL'
    cases h <;> cases hdisplaced
  · exact ⟨t', hL'⟩

theorem sweep (L : Ledger) (victims : List Serial) (demote : Bool) :
    (L.swept victims demote).Fades L := by
  intro s e t' hL'
  rcases L.swept_cases victims demote s with hsame | ⟨e', t, -, -, -, hswept⟩
  · rw [hsame] at hL'
    exact ⟨t', hL'⟩
  · rw [hswept] at hL'
    cases (Option.ite_none_right_eq_some.mp hL').2

theorem prune (L : Ledger) (victims : List Serial) : (L.pruned victims).Fades L :=
  fun _ _ t' hL' => ⟨t', (Ledger.pruned_eq_some_iff.mp hL').1⟩

end Ledger.Fades

/-- A ledger holds the record of an event under a serial. -/
def Ledger.Holds (L : Ledger) (s : Serial) (e : Event) : Prop :=
  ∃ h, L s = some h ∧ h.stub?.isSome ∧ h.event = e

/-- Every record of one ledger is one of another, whole or demoted. -/
def Ledger.Keeps (L' L : Ledger) : Prop := ∀ s e, L.Holds s e → L'.Holds s e

/-- A record takes the place of one of the same event. -/
theorem Ledger.Keeps.update {L : Ledger} {s : Serial} {h h' : Holding} (hL : L s = some h)
    (he : h'.event = h.event) (hheld : h'.stub?.isSome) :
    Ledger.Keeps (Function.update L s (some h')) L := by
  rintro s' e ⟨h'', hL'', hheld'', rfl⟩
  by_cases heq : s' = s
  · subst heq
    rw [hL] at hL''
    cases hL''
    exact ⟨h', Function.update_self .., hheld, he⟩
  · exact ⟨h'', by rw [Function.update_of_ne heq, hL''], hheld'', rfl⟩

/-- A sweep that demotes keeps every record. -/
theorem Ledger.Keeps.sweep (L : Ledger) (victims : List Serial) :
    (L.swept victims true).Keeps L := by
  rintro s e ⟨h, hL, hheld, rfl⟩
  rcases L.swept_cases victims true s with hsame | ⟨e, t, -, hlive, -, hswept⟩
  · exact ⟨h, hsame.trans hL, hheld, rfl⟩
  · obtain rfl := Option.some.inj (hlive.symm.trans hL)
    exact ⟨.demoted e, hswept, rfl, rfl⟩

/-- A sweep of the indices without victims keeps every record. -/
theorem Ledger.Keeps.prune (L : Ledger) : (L.pruned []).Keeps L := by
  rintro s e ⟨h, hL, hheld, rfl⟩
  refine ⟨h, Ledger.pruned_eq_some_iff.mpr ⟨hL, ?_, hheld⟩, hheld, rfl⟩
  rintro ⟨⟨⟩, -⟩

/-- Two ledgers that differ in access times alone. -/
def Ledger.SameForms (L' L : Ledger) : Prop :=
  ∀ s, (L' s).map (fun h => (h.event, h.stub?)) = (L s).map fun h => (h.event, h.stub?)

namespace Ledger.SameForms
variable {L L' : Ledger}

theorem of_foldl_note (at_ : UInt64) (batch : List Access) (L : Ledger) :
    Ledger.SameForms (batch.foldl (Ledger.note at_) L) L := by
  induction batch generalizing L with
  | nil => exact fun _ => rfl
  | cons a batch ih =>
    intro s
    rw [List.foldl_cons, ih]
    simp [Ledger.note, Function.comp_def]

/-- What is held in one of the ledgers is held in the other, in the same form. -/
theorem exists_of_eq_some {s : Serial} {h' : Holding} (hsame : L'.SameForms L)
    (hL' : L' s = some h') : ∃ h, L s = some h ∧ h.event = h'.event ∧ h.stub? = h'.stub? := by
  have hs := hsame s
  rw [hL', Option.map_some] at hs
  obtain ⟨h, hL, hform⟩ := Option.map_eq_some_iff.mp hs.symm
  rw [Prod.mk.injEq] at hform
  exact ⟨h, hL, hform⟩

theorem symm (hsame : L'.SameForms L) : L.SameForms L' := fun s => (hsame s).symm

theorem trans {L'' : Ledger} (h₁ : L''.SameForms L') (h₂ : L'.SameForms L) : L''.SameForms L :=
  fun s => (h₁ s).trans (h₂ s)

theorem within (hsame : L'.SameForms L) : L'.Within L := by
  intro s h' hL'
  obtain ⟨h, hL, he, hstub⟩ := hsame.exists_of_eq_some hL'
  exact ⟨h, hL, he, by rw [hstub]; exact id⟩

theorem keeps (hsame : L'.SameForms L) : L'.Keeps L := by
  rintro s e ⟨h, hL, hheld, rfl⟩
  obtain ⟨h', hL', he, hstub⟩ := hsame.symm.exists_of_eq_some hL
  exact ⟨h', hL', by rwa [hstub], he⟩

theorem fades (hsame : L'.SameForms L) : L'.Fades L := by
  intro s e t' hL'
  obtain ⟨h, hL, he, hstub⟩ := hsame.exists_of_eq_some hL'
  cases h with
  | live e' t =>
    obtain rfl : e' = e := he
    exact ⟨t, hL⟩
  | demoted e' => cases hstub
  | queued e' => cases hstub

theorem queued_iff (hsame : L'.SameForms L) (s : Serial) :
    (∃ e, L' s = some (.queued e)) ↔ ∃ e, L s = some (.queued e) := by
  have hstep : ∀ {L L' : Ledger}, L'.SameForms L →
      (∃ e, L' s = some (.queued e)) → ∃ e, L s = some (.queued e) := by
    rintro L L' hsame ⟨e, hL'⟩
    obtain ⟨h, hL, -, hstub⟩ := hsame.exists_of_eq_some hL'
    cases h with
    | live e t => cases hstub
    | demoted e => cases hstub
    | queued e => exact ⟨e, hL⟩
  exact ⟨hstep hsame, hstep hsame.symm⟩

end Ledger.SameForms

/-- A record of a new event keeps records apart. -/
theorem Ledger.Unique.insert {L : Ledger} {e : Event} (hu : L.Unique)
    (hnew : ∀ s h, L s = some h → h.stub?.isSome → h.event.id ≠ e.id) (s : Serial)
    (now : UInt64) : Ledger.Unique (Function.update L s (some (.live e now))) := by
  intro s₁ s₂ h₁ h₂ hL₁ hL₂ hheld₁ hheld₂ hid
  by_cases heq₁ : s₁ = s <;> by_cases heq₂ : s₂ = s
  · rw [heq₁, heq₂]
  · subst heq₁
    rw [Function.update_self] at hL₁
    rw [Function.update_of_ne heq₂] at hL₂
    cases hL₁
    exact absurd hid.symm (hnew s₂ h₂ hL₂ hheld₂)
  · subst heq₂
    rw [Function.update_of_ne heq₁] at hL₁
    rw [Function.update_self] at hL₂
    cases hL₂
    exact absurd hid (hnew s₁ h₁ hL₁ hheld₁)
  · rw [Function.update_of_ne heq₁] at hL₁
    rw [Function.update_of_ne heq₂] at hL₂
    exact hu s₁ s₂ h₁ h₂ hL₁ hL₂ hheld₁ hheld₂ hid

namespace Tier

/-- **A tier follows a ledger**: its tables are those of the ledger, every event of the ledger is
in the journal of what was stored, and no serial of the journal will be given out again. -/
structure Follows (t : Tier) (L : Ledger) (J : List (Serial × Event)) : Prop where
  db : t.db.Represents L
  unique : L.Unique
  stored : ∀ s h, L s = some h → (s, h.event) ∈ J
  issued : ∀ p ∈ J, p.1.toNat < t.lease.next.toNat
  once : (J.map (·.1)).Nodup
  lease : t.lease.Covers t.db
  version : t.db.settings.get? Database.versionSetting = some Database.layoutVersion

namespace Follows
variable {t t' : Tier} {L L' : Ledger} {J : List (Serial × Event)} {e : Event}

/-- A tier that is opened again goes on where its tables end. -/
theorem start_eq (hf : t.Follows L J) (batch : UInt64) :
    start t.db batch = ⟨t.db, Lease.resume t.db batch⟩ := by
  rw [start, Database.prepare, hf.version]
  rfl

/-- Under one serial one event was stored. -/
theorem event_eq {s : Serial} {h : Holding} (hf : t.Follows L J) (hL : L s = some h)
    (he : (s, e) ∈ J) : h.event = e := by
  have hp := List.inj_on_of_nodup_map hf.once (hf.stored s h hL) he rfl
  exact congrArg Prod.snd hp

theorem sized (hf : t.Follows L J) (hJ : ∀ p ∈ J, p.2.Sized) (s : Serial) (h : Holding)
    (hL : L s = some h) : h.event.Sized :=
  hJ _ (hf.stored s h hL)

/-- An unused serial holds nothing. -/
theorem next_free (hf : t.Follows L J) : L t.lease.next = none := by
  rw [Option.eq_none_iff_forall_ne_some]
  intro h hL
  exact Nat.lt_irrefl _ (hf.issued _ (hf.stored _ h hL))

/-- A transaction that stores nothing leaves the journal. -/
theorem of_within (hf : t.Follows L J) (hdb : t'.db.Represents L') (hw : L'.Within L)
    (hsettings : t'.db.settings = t.db.settings) (hlease : t'.lease = t.lease) :
    t'.Follows L' J where
  db := hdb
  unique := hw.unique hf.unique
  stored s h' hL' := by
    obtain ⟨h, hL, he, -⟩ := hw s h' hL'
    exact he ▸ hf.stored s h hL
  issued := hlease ▸ hf.issued
  once := hf.once
  lease := by
    rw [hlease]
    exact ⟨hf.lease.batch_pos, hf.lease.next_le, hsettings ▸ hf.lease.bound⟩
  version := hsettings ▸ hf.version

/-! ### The transactions one by one -/

/-- Giving out a serial changes nothing that is held. -/
theorem issue {s : Serial} {lease : Lease} {db : Database} (hf : t.Follows L J)
    (h : t.lease.issue t.db = .ok (s, lease, db)) : Follows ⟨db, lease⟩ L J := by
  obtain ⟨-, hnext, hcovers, hevents, hpurge, hversion⟩ := Lease.issue_eq_ok hf.lease h
  refine ⟨⟨?_, ?_⟩, hf.unique, hf.stored, fun p hp => ?_, hf.once, hcovers, ?_⟩
  · rw [hevents]
    exact hf.db.events
  · rw [hpurge]
    exact hf.db.purge
  · have := hf.issued p hp
    show p.1.toNat < lease.next.toNat
    omega
  · rw [hversion, hf.version]

/-- Storing a new event under a serial that was given out. -/
theorem insert {s : Serial} {now : UInt64} (hf : t.Follows L J) (hw : L'.Within L)
    (hdb : t'.db.Represents (Function.update L' s (some (.live e now))))
    (hnew : ∀ s h, L s = some h → h.stub?.isSome → h.event.id ≠ e.id)
    (hs : s.toNat < t.lease.next.toNat) (hunused : s ∉ J.map (·.1))
    (hsettings : t'.db.settings = t.db.settings) (hlease : t'.lease = t.lease) :
    t'.Follows (Function.update L' s (some (.live e now))) (J ++ [(s, e)]) where
  db := hdb
  unique := by
    refine Ledger.Unique.insert (hw.unique hf.unique) (fun s' h' hL' hheld => ?_) s now
    obtain ⟨h, hL, he, hk⟩ := hw s' h' hL'
    exact he ▸ hnew s' h hL (hk hheld)
  stored s' h' hL' := by
    by_cases heq : s' = s
    · subst heq
      rw [Function.update_self] at hL'
      cases hL'
      exact List.mem_append_right _ List.mem_cons_self
    · rw [Function.update_of_ne heq] at hL'
      obtain ⟨h, hL, he, -⟩ := hw s' h' hL'
      exact List.mem_append_left _ (he ▸ hf.stored s' h hL)
  issued p hp := by
    rw [hlease]
    rcases List.mem_append.mp hp with hp | hp
    · exact hf.issued p hp
    · obtain rfl := List.mem_singleton.mp hp
      exact hs
  once := by
    rw [List.map_append, List.nodup_append]
    refine ⟨hf.once, List.nodup_singleton _, fun s₁ h₁ s₂ h₂ heq => ?_⟩
    obtain rfl : s₂ = s := List.mem_singleton.mp h₂
    exact hunused (heq ▸ h₁)
  lease := by
    rw [hlease]
    exact ⟨hf.lease.batch_pos, hf.lease.next_le, hsettings ▸ hf.lease.bound⟩
  version := hsettings ▸ hf.version

/-- **Saving.**  Either no serial can be given out and nothing changes, or the ledger changes as
the outcome says. -/
theorem save (hf : t.Follows L J) (hid : ∀ p ∈ J, p.2.id = e.id → p.2 = e) (now : UInt64) :
    (∃ err, t.db.save t.lease now e = (.error err, t.lease, t.db) ∧
      t.lease.issue t.db = .error err) ∨
    ∃ o L', (t.db.save t.lease now e).1 = .ok o ∧
      L.Saved (t.db.events.rivals e) now e t.lease.next o L' ∧
      (t.step (.save now e)).Follows L' (J ++ (t.stored? (.save now e)).toList) := by
  by_cases hkind : e.kind.retention = .ephemeral
  · have hsave : t.db.save t.lease now e = (.ok .ephemeral, t.lease, t.db) := if_pos hkind
    refine .inr ⟨_, L, by rw [hsave], .ephemeral hkind, ?_⟩
    simpa only [Tier.step, Tier.stored?, hsave, Option.toList_none, List.append_nil] using hf
  -- a whole copy is noticed before a serial is taken
  by_cases hlive : (t.db.events.locate e.id).any (!·.stub) = true
  · have hsave : t.db.save t.lease now e = (.ok .duplicate, t.lease, t.db) := by
      rw [Database.save, if_neg hkind, if_pos hlive]
    obtain ⟨found, hfound, hwhole⟩ := (Option.any_eq_true _ _).mp hlive
    obtain ⟨h, hL, hid', hstub⟩ := (hf.db.events.locate_eq_some_iff hf.unique).mp hfound
    have hstub' : h.stub? = some false := by
      rw [hstub]
      simpa using hwhole
    cases h with
    | live e' t' =>
      refine .inr ⟨_, L, by rw [hsave], .duplicate hkind hL hid', ?_⟩
      simpa only [Tier.step, Tier.stored?, hsave, Option.toList_none, List.append_nil] using hf
    | demoted e' => cases hstub'
    | queued e' => cases hstub'
  cases hissue : t.lease.issue t.db with
  | error err =>
    have hsave : t.db.save t.lease now e = (.error err, t.lease, t.db) := by
      rw [Database.save, if_neg hkind, if_neg hlive, hissue]
    exact .inl ⟨err, hsave, rfl⟩
  | ok issued =>
    obtain ⟨s, lease, db⟩ := issued
    have hsave : t.db.save t.lease now e =
        (.ok (db.saveAs now s e).1, lease, (db.saveAs now s e).2) := by
      rw [Database.save, if_neg hkind, if_neg hlive, hissue]
    obtain ⟨rfl, hnext, -, hevents, -, -⟩ := Lease.issue_eq_ok hf.lease hissue
    have hf' := hf.issue hissue
    -- the rivals are those of before, since issuing a serial leaves the key space
    obtain ⟨L', hsaved, hrep⟩ := hf'.db.saveAs hf.unique hf.next_free hkind
      (fun s h hL => hid _ (hf.stored s h hL)) now
    have hsettings := Database.settings_saveAs db now t.lease.next e
    rw [hevents] at hsaved
    refine .inr ⟨_, L', by rw [hsave], hsaved, ?_⟩
    simp only [Tier.step, Tier.stored?, hsave]
    generalize db.saveAs now t.lease.next e = result at hsaved hrep hsettings
    obtain ⟨o, db'⟩ := result
    cases hsaved with
    | ephemeral h => exact absurd h hkind
    | duplicate =>
      rw [Option.toList_none, List.append_nil]
      exact hf'.of_within hrep (.refl L) hsettings rfl
    | revived _ hL =>
      rw [Option.toList_none, List.append_nil]
      exact hf'.of_within hrep (.update hL rfl fun _ => rfl) hsettings rfl
    | superseded =>
      rw [Option.toList_none, List.append_nil]
      exact hf'.of_within hrep (.refl L) hsettings rfl
    | stored _ hnew =>
      refine hf'.insert (.displace L _) hrep hnew ?_ ?_ hsettings rfl
      · show t.lease.next.toNat < lease.next.toNat
        omega
      · intro hmem
        obtain ⟨p, hp, heq⟩ := List.mem_map.mp hmem
        have := hf.issued p hp
        rw [heq] at this
        omega

/-- **Deleting.** -/
theorem delete (hf : t.Follows L J) (hid : ∀ p ∈ J, p.2.id = e.id → p.2 = e) :
    (∃ s h, L s = some h ∧ h.stub?.isSome ∧ h.event = e ∧ (t.db.delete e).1 = .deleted ∧
      (t.step (.delete e)).Follows (Function.update L s none) J) ∨
    ((∀ s h, L s = some h → h.stub?.isSome → h.event.id ≠ e.id) ∧
      t.db.delete e = (.notFound, t.db)) := by
  rw [Tier.step, Database.delete]
  cases hfound : t.db.events.locate e.id with
  | none => exact .inr ⟨(hf.db.events.locate_eq_none_iff hf.unique).mp hfound, rfl⟩
  | some found =>
    obtain ⟨h, hL, hid', hstub⟩ := (hf.db.events.locate_eq_some_iff hf.unique).mp hfound
    have he : h.event = e := hid _ (hf.stored _ _ hL) hid'
    have hheld : h.stub?.isSome := by rw [hstub]; rfl
    refine .inl ⟨found.serial, h, hL, hheld, he, rfl, ?_⟩
    have hevents := hf.db.events.removeRecord hL
    rw [he] at hevents
    refine hf.of_within ⟨hevents, Database.Represents.contains_update (fun s _ => hf.db.purge s) ?_⟩
      (.remove L _) rfl rfl
    rw [hf.db.purge, hL]
    cases h <;> simp_all [Holding.stub?]

/-- **Noting accesses.** -/
theorem touch (hf : t.Follows L J) (batch : List Access) (now : UInt64) :
    (t.step (.touch batch now)).Follows (batch.foldl (Ledger.note now) L) J := by
  have hsame := Ledger.SameForms.of_foldl_note now batch L
  refine hf.of_within ⟨hf.db.events.touchOrDrop batch now, fun s => ?_⟩ hsame.within rfl rfl
  rw [hsame.queued_iff]
  exact hf.db.purge s

/-- **Sweeping records.**  Nothing becomes whole, and what is demoted is still held. -/
theorem sweepRecords (hf : t.Follows L J) (victims : List Serial) (demote : Bool) :
    ∃ L', (t.step (.sweepRecords victims demote)).Follows L' J ∧ L'.Within L ∧ L'.Fades L ∧
      (demote = true → L'.Keeps L) := by
  refine ⟨L.swept victims demote, ?_, .sweep L _ _, .sweep L _ _, ?_⟩
  · exact hf.of_within (hf.db.sweepRecords victims demote) (.sweep L _ _)
      (EventTier.tables_sweep t.db victims demote).2 rfl
  · rintro rfl
    exact .sweep L victims

/-- **Sweeping indices.**  Nothing becomes whole, and without victims what is held stays. -/
theorem sweepIndices (hf : t.Follows L J) (victims : List Serial) :
    ∃ L', (t.step (.sweepIndices victims)).Follows L' J ∧ L'.Within L ∧ L'.Fades L ∧
      (victims = [] → L'.Keeps L) := by
  refine ⟨L.pruned victims, ?_, .prune L _, .prune L _, ?_⟩
  · exact hf.of_within (hf.db.sweepIndices victims) (.prune L _)
      (IndexTier.settings_sweep t.db victims) rfl
  · rintro rfl
    exact .prune L

theorem release (hf : t.Follows L J) : t.release.Follows L J where
  db := ⟨hf.db.events, hf.db.purge⟩
  unique := hf.unique
  stored := hf.stored
  issued := hf.issued
  once := hf.once
  lease := Lease.covers_release hf.lease
  version := by
    have hne : Database.versionSetting ≠ Database.serialSetting := by decide
    show (t.db.settings.insert Database.serialSetting t.lease.next).get? _ = _
    rw [SortedMap.get?_insert, if_neg hne, hf.version]

theorem start (hf : t.Follows L J) (batch : UInt64) : (start t.db batch).Follows L J := by
  have hbound : (Lease.resume t.db batch).next = t.lease.limit := hf.lease.bound
  rw [hf.start_eq]
  exact ⟨hf.db, hf.unique, hf.stored,
    fun p hp => hbound ▸ Nat.lt_of_lt_of_le (hf.issued p hp) hf.lease.next_le, hf.once,
    Lease.covers_resume t.db batch, hf.version⟩

/-- Nothing was stored. -/
theorem append_toList (hf : t.Follows L J) {stored : Option (Serial × Event)}
    (hnone : stored = none) : t.Follows L (J ++ stored.toList) := by
  rw [hnone, Option.toList_none, List.append_nil]
  exact hf

/-- **One transaction**, if no other event has the identifier of the one it is given: it saves the
event, or it stores nothing, and makes nothing a record or whole that was not. -/
theorem step_cases (hf : t.Follows L J) (x : Transaction)
    (hid : ∀ e, x.event? = some e → ∀ p ∈ J, p.2.id = e.id → p.2 = e) :
    (∃ now e o L', x = .save now e ∧ (t.db.save t.lease now e).1 = .ok o ∧
      L.Saved (t.db.events.rivals e) now e t.lease.next o L' ∧
      (t.step x).Follows L' (J ++ (t.stored? x).toList)) ∨
    ∃ L', (t.step x).Follows L' (J ++ (t.stored? x).toList) ∧ t.stored? x = none ∧
      L'.Within L ∧ L'.Fades L := by
  -- only saving can store something
  have hrest : ∀ {L' : Ledger}, t.stored? x = none → (t.step x).Follows L' J → L'.Within L →
      L'.Fades L → ∃ L', (t.step x).Follows L' (J ++ (t.stored? x).toList) ∧ t.stored? x = none ∧
        L'.Within L ∧ L'.Fades L := fun hnone hf' hw hfades =>
    ⟨_, hf'.append_toList hnone, hnone, hw, hfades⟩
  cases x with
  | save now e =>
    rcases hf.save (hid e rfl) now with ⟨err, hsave, -⟩ | ⟨o, L', hok, hsaved, hf'⟩
    · have hstep : t.step (.save now e) = t := by rw [Tier.step, hsave]
      refine .inr (hrest ?_ (hstep.symm ▸ hf) (.refl L) (.refl L))
      rw [Tier.stored?, hsave]
    · exact .inl ⟨now, e, o, L', rfl, hok, hsaved, hf'⟩
  | delete e =>
    rcases hf.delete (hid e rfl) with ⟨s, h, -, -, -, -, hf'⟩ | ⟨-, hdelete⟩
    · exact .inr (hrest rfl hf' (.remove L s) (.remove L s))
    · have hstep : t.step (.delete e) = t := by rw [Tier.step, hdelete]
      exact .inr (hrest rfl (hstep.symm ▸ hf) (.refl L) (.refl L))
  | touch batch now =>
    have hsame := Ledger.SameForms.of_foldl_note now batch L
    exact .inr (hrest rfl (hf.touch batch now) hsame.within hsame.fades)
  | sweepRecords victims demote =>
    obtain ⟨L', hf', hw, hfades, -⟩ := hf.sweepRecords victims demote
    exact .inr (hrest rfl hf' hw hfades)
  | sweepIndices victims =>
    obtain ⟨L', hf', hw, hfades, -⟩ := hf.sweepIndices victims
    exact .inr (hrest rfl hf' hw hfades)
  | release => exact .inr (hrest rfl hf.release (.refl L) (.refl L))
  | reopen batch => exact .inr (hrest rfl (hf.release.start batch) (.refl L) (.refl L))
  | crash batch => exact .inr (hrest rfl (hf.start batch) (.refl L) (.refl L))

/-- After a transaction the tier goes on following a ledger. -/
theorem step (hf : t.Follows L J) (x : Transaction)
    (hid : ∀ e, x.event? = some e → ∀ p ∈ J, p.2.id = e.id → p.2 = e) :
    ∃ L', (t.step x).Follows L' (J ++ (t.stored? x).toList) := by
  rcases hf.step_cases x hid with ⟨_, _, _, L', -, -, -, hf'⟩ | ⟨L', hf', -⟩
  · exact ⟨L', hf'⟩
  · exact ⟨L', hf'⟩

end Follows

/-- Only saving stores an event, and the event is the one it is given. -/
theorem event?_of_stored? {t : Tier} {x : Transaction} {p : Serial × Event}
    (h : t.stored? x = some p) : x.event? = some p.2 := by
  cases x with
  | save now e =>
    rw [stored?] at h
    split at h
    · cases h
      rfl
    · cases h
  | _ => cases h

/-- What is true of the events of a journal and of what a transaction is given stays true of the
journal. -/
theorem forall_mem_append_stored {t : Tier} {x : Transaction} {J : List (Serial × Event)}
    {P : Event → Prop} (hJ : ∀ p ∈ J, P p.2) (hx : ∀ e, x.event? = some e → P e) :
    ∀ p ∈ J ++ (t.stored? x).toList, P p.2 := by
  intro p hp
  rcases List.mem_append.mp hp with hp | hp
  · exact hJ p hp
  · exact hx _ (event?_of_stored? (Option.mem_toList.mp hp))

/-- **A run of transactions.** -/
theorem Follows.run {t : Tier} {L : Ledger} {J : List (Serial × Event)} (hf : t.Follows L J)
    {xs : List Transaction} (hid : Identified (J.map (·.2) ++ xs.filterMap (·.event?))) :
    ∃ L', (t.run xs).Follows L' (J ++ t.journal xs) := by
  induction xs generalizing t L J with
  | nil => exact ⟨L, by rwa [journal, List.append_nil]⟩
  | cons x xs ih =>
    obtain ⟨L', hf'⟩ := hf.step x fun e he p hp =>
      hid _ (List.mem_append_left _ (List.mem_map_of_mem hp)) _
        (List.mem_append_right _ (List.mem_filterMap.mpr ⟨x, List.mem_cons_self, he⟩))
    -- what the transaction stores is among the events that the run is given
    have hmem : ∀ e, e ∈ (J ++ (t.stored? x).toList).map (·.2) ++ xs.filterMap (·.event?) →
        e ∈ J.map (·.2) ++ (x :: xs).filterMap (·.event?) := by
      intro e he
      rw [List.map_append, List.append_assoc, List.mem_append, List.mem_append] at he
      rcases he with he | he | he
      · exact List.mem_append_left _ he
      · obtain ⟨p, hp, rfl⟩ := List.mem_map.mp he
        have hx := event?_of_stored? (Option.mem_toList.mp hp)
        exact List.mem_append_right _ (List.mem_filterMap.mpr ⟨x, List.mem_cons_self, hx⟩)
      · obtain ⟨y, hy, he⟩ := List.mem_filterMap.mp he
        exact List.mem_append_right _
          (List.mem_filterMap.mpr ⟨y, List.mem_cons_of_mem _ hy, he⟩)
    obtain ⟨L'', hf''⟩ := ih hf' fun a ha b hb => hid a (hmem a ha) b (hmem b hb)
    exact ⟨L'', by rwa [journal, ← List.append_assoc]⟩

/-- The events of a journal are events that the run was given. -/
theorem mem_of_mem_journal {t : Tier} {xs : List Transaction} {p : Serial × Event}
    (hp : p ∈ t.journal xs) : p.2 ∈ xs.filterMap (·.event?) := by
  induction xs generalizing t with
  | nil => cases hp
  | cons x xs ih =>
    rw [journal] at hp
    rcases List.mem_append.mp hp with hp | hp
    · exact List.mem_filterMap.mpr
        ⟨x, List.mem_cons_self, event?_of_stored? (Option.mem_toList.mp hp)⟩
    · obtain ⟨y, hy, he⟩ := List.mem_filterMap.mp (ih hp)
      exact List.mem_filterMap.mpr ⟨y, List.mem_cons_of_mem _ hy, he⟩

/-- What is ephemeral is never stored. -/
theorem retention_of_mem_journal {t : Tier} {xs : List Transaction} {p : Serial × Event}
    (hp : p ∈ t.journal xs) : p.2.kind.retention ≠ .ephemeral := by
  induction xs generalizing t with
  | nil => cases hp
  | cons x xs ih =>
    rw [journal] at hp
    rcases List.mem_append.mp hp with hp | hp
    · have hstored := Option.mem_toList.mp hp
      cases x with
      | save now e =>
        obtain rfl : e = p.2 := Option.some.inj (event?_of_stored? hstored)
        intro hkind
        rw [stored?, Database.save, if_pos hkind] at hstored
        cases hstored
      | _ => cases hstored
    · exact ih hp

theorem run_append_singleton (t : Tier) (xs : List Transaction) (x : Transaction) :
    t.run (xs ++ [x]) = (t.run xs).step x := by
  rw [run, List.foldl_append]
  rfl

theorem journal_append_singleton (t : Tier) (xs : List Transaction) (x : Transaction) :
    t.journal (xs ++ [x]) = t.journal xs ++ ((t.run xs).stored? x).toList := by
  induction xs generalizing t with
  | nil => rw [List.nil_append, journal, journal, journal, List.append_nil, List.nil_append]; rfl
  | cons y xs ih =>
    rw [List.cons_append, journal, journal, ih, List.append_assoc]
    rfl

/-- A new tier holds nothing. -/
theorem follows_fresh (batch : UInt64) : (fresh batch).Follows (fun _ => none) [] where
  db := ⟨Keyspace.Renders.empty, fun s => ⟨nofun, nofun⟩⟩
  unique _ _ _ _ h := by cases h
  stored _ _ h := by cases h
  issued _ h := by cases h
  once := List.nodup_nil
  lease := Lease.covers_resume _ batch
  version := rfl

/-- **Every reachable tier follows a ledger.** -/
theorem exists_follows (batch : UInt64) {xs : List Transaction}
    (hid : Identified (xs.filterMap (·.event?))) :
    ∃ L, ((fresh batch).run xs).Follows L ((fresh batch).journal xs) :=
  (follows_fresh batch).run hid

end Tier
end EventArchive
