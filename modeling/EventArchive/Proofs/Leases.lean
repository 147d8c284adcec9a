import EventArchive.Proofs.SortedMap
import EventArchive.Store.Serials

/-! # Leases of serials

A lease covers the serials below the bound that its database holds
(`Lease.Covers`), and the bound is written before the first of them is given out.
So whatever happens to an allocator, whether it is used, returns its lease or is
dropped in the middle of it, the next one that is opened on the database goes on
behind every serial that was given out: over the whole life of a database serials
only grow (`Allocator.serials_increase`).
-/
namespace EventArchive

/-- The serials of a lease are those below the bound of the database. -/
structure Lease.Covers (l : Lease) (db : Database) : Prop where
  batch_pos : 0 < l.batch.toNat
  next_le : l.next.toNat ≤ l.limit.toNat
  bound : (db.settings.get? Database.serialSetting).getD 0 = l.limit

namespace Lease
variable {l l' : Lease} {db db' : Database} {s : Serial}

/-- **What giving out a serial can do**: take the next one of the lease, renew a lease that is used
up, or fail because there are not enough serials left for another batch. -/
theorem issue_cases (l : Lease) (db : Database) :
    (l.next < l.limit ∧ l.issue db = .ok (l.next, { l with next := l.next + 1 }, db)) ∨
    (l.limit ≤ l.next ∧ l.next.toNat + l.batch.toNat < UInt64.size ∧
      l.issue db = .ok (l.next, { l with next := l.next + 1, limit := l.next + l.batch },
        persist db (l.next + l.batch))) ∨
    (l.limit ≤ l.next ∧ UInt64.size ≤ l.next.toNat + l.batch.toNat ∧
      l.issue db = .error (.serialAllocation "serial space exhausted")) := by
  by_cases hused : l.limit ≤ l.next
  · by_cases hroom : l.next.toNat + l.batch.toNat < UInt64.size
    · refine .inr (.inl ⟨hused, hroom, ?_⟩)
      rw [issue, if_pos hused, if_pos hroom]
    · refine .inr (.inr ⟨hused, Nat.le_of_not_lt hroom, ?_⟩)
      rw [issue, if_pos hused, if_neg hroom]
  · refine .inl ⟨UInt64.not_le.mp hused, ?_⟩
    rw [issue, if_neg hused]

theorem covers_resume (db : Database) (batch : UInt64) : (resume db batch).Covers db where
  batch_pos := by
    have hone : (1 : UInt64).toNat = 1 := rfl
    show 0 < (if batch ≤ 1 then 1 else batch).toNat
    split_ifs with hle
    · omega
    · have := UInt64.lt_iff_toNat_lt.mp (UInt64.not_le.mp hle)
      omega
  next_le := Nat.le_refl _
  bound := rfl

/-- Counting on does not overflow while there are serials above. -/
theorem toNat_succ {s : Serial} {n : Nat} (hlt : s.toNat < n) (hn : n < UInt64.size) :
    (s + 1).toNat = s.toNat + 1 := by
  have hone : (1 : UInt64).toNat = 1 := rfl
  have hn : n < 2 ^ 64 := hn
  rw [UInt64.toNat_add, hone, Nat.mod_eq_of_lt (by omega)]

/-- **The next serial is given out**, and only the bound in the settings may change. -/
theorem issue_eq_ok (hc : l.Covers db) (h : l.issue db = .ok (s, l', db')) :
    s = l.next ∧ l'.next.toNat = l.next.toNat + 1 ∧ l'.Covers db' ∧
      db'.events = db.events ∧ db'.purge = db.purge ∧
      db'.settings.get? Database.versionSetting = db.settings.get? Database.versionSetting := by
  have hbatch := hc.batch_pos
  rcases l.issue_cases db with ⟨hlt, hok⟩ | ⟨-, hroom, hok⟩ | ⟨-, -, herror⟩
  · cases h.symm.trans hok
    have hlt := UInt64.lt_iff_toNat_lt.mp hlt
    have hsucc : (l.next + 1).toNat = l.next.toNat + 1 := toNat_succ hlt l.limit.toNat_lt
    refine ⟨rfl, hsucc, ⟨hbatch, ?_, hc.bound⟩, rfl, rfl, rfl⟩
    show (l.next + 1).toNat ≤ l.limit.toNat
    omega
  · cases h.symm.trans hok
    have hsucc : (l.next + 1).toNat = l.next.toNat + 1 := toNat_succ (by omega) hroom
    have hbound : (l.next + l.batch).toNat = l.next.toNat + l.batch.toNat := by
      have hroom : l.next.toNat + l.batch.toNat < 2 ^ 64 := hroom
      rw [UInt64.toNat_add, Nat.mod_eq_of_lt hroom]
    refine ⟨rfl, hsucc, ⟨hbatch, ?_, ?_⟩, rfl, rfl, ?_⟩
    · show (l.next + 1).toNat ≤ (l.next + l.batch).toNat
      omega
    · simp [persist]
    · simp [persist, Database.versionSetting, Database.serialSetting]
  · cases h.symm.trans herror

theorem covers_release (hc : l.Covers db) : (l.release db).1.Covers (l.release db).2 where
  batch_pos := hc.batch_pos
  next_le := Nat.le_refl _
  bound := by simp [release, persist]

end Lease

/-! ### Allocators -/

/-- A database, and the lease of the allocator that gives out its serials. -/
structure Allocator where
  lease : Lease
  db : Database
  deriving DecidableEq

namespace Allocator

/-- What happens to an allocator. -/
inductive Step where
  | next
  | release
  /-- The allocator is dropped as it is, and another one is opened on the database.  One that is
  dropped in the midst of `next` has written the bound, so it leaves the database that `next`
  leaves. -/
  | reopen (batch : UInt64)
  deriving DecidableEq

/-- Open an allocator on a database. -/
def start (db : Database) (batch : UInt64) : Allocator := ⟨Lease.resume db batch, db⟩

/-- The bound that the database holds. -/
def bound (a : Allocator) : Serial := (a.db.settings.get? Database.serialSetting).getD 0

/-- The allocator after a step. A serial that cannot be given out changes nothing. -/
def step (a : Allocator) : Step → Allocator
  | .next =>
    match a.lease.issue a.db with
    | .ok (_, lease, db) => ⟨lease, db⟩
    | .error _ => a
  | .release =>
    let (lease, db) := a.lease.release a.db
    ⟨lease, db⟩
  | .reopen batch => start a.db batch

/-- The serial that a step gives out. -/
def issued? (a : Allocator) : Step → Option Serial
  | .next =>
    match a.lease.issue a.db with
    | .ok (s, _, _) => some s
    | .error _ => none
  | _ => none

/-- The allocator after some steps. -/
def run (a : Allocator) (steps : List Step) : Allocator := steps.foldl step a

/-- The serials that some steps give out. -/
def issued (a : Allocator) : List Step → List Serial
  | [] => []
  | x :: xs => (a.issued? x).toList ++ (a.step x).issued xs

/-- The batch with which the allocator at the end was opened. -/
def batchAfter (batch : UInt64) (steps : List Step) : UInt64 :=
  steps.foldl (fun batch x => match x with | .reopen batch => batch | _ => batch) batch

/-- What holds of an allocator with a batch, after serials were given out from a first one on. -/
structure Leads (a : Allocator) (first : Serial) (batch : UInt64) (issued : List Serial) :
    Prop where
  covers : a.lease.Covers a.db
  batch : a.lease.batch = max batch 1
  near : a.lease.limit.toNat ≤ a.lease.next.toNat + a.lease.batch.toNat
  first_le : first ≤ a.lease.next
  between : ∀ s ∈ issued, first ≤ s ∧ s < a.lease.next
  increasing : issued.Pairwise (· < ·)

namespace Leads
variable {a : Allocator} {first : Serial} {batch : UInt64} {issued : List Serial}

theorem start (db : Database) (batch : UInt64) :
    (start db batch).Leads (Allocator.start db batch).bound batch [] where
  covers := Lease.covers_resume db batch
  batch := rfl
  near := Nat.le_add_right _ _
  first_le := UInt64.le_refl _
  between := nofun
  increasing := .nil

theorem bound_eq (h : a.Leads first batch issued) : a.bound = a.lease.limit := h.covers.bound

/-- The serials given out before come before the next one. -/
theorem snoc (h : a.Leads first batch issued) :
    (issued ++ [a.lease.next]).Pairwise (· < ·) := by
  refine List.pairwise_append.mpr ⟨h.increasing, List.pairwise_singleton _ _, ?_⟩
  intro s hs s' hs'
  obtain rfl := List.mem_singleton.mp hs'
  exact (h.between s hs).2

/-- A lease that has moved on by one serial, with a bound that is near. -/
theorem advance (h : a.Leads first batch issued) {s : Serial} {lease : Lease} {db : Database}
    (hissue : a.lease.issue a.db = .ok (s, lease, db)) (hbatch : lease.batch = a.lease.batch)
    (hnear : lease.limit.toNat ≤ lease.next.toNat + lease.batch.toNat) :
    Leads ⟨lease, db⟩ first batch (issued ++ [s]) := by
  obtain ⟨rfl, hnext, hcovers, -⟩ := Lease.issue_eq_ok h.covers hissue
  have hlt : a.lease.next < lease.next := by
    rw [UInt64.lt_iff_toNat_lt, hnext]
    omega
  refine ⟨hcovers, hbatch.trans h.batch, hnear, ?_, ?_, h.snoc⟩
  · exact UInt64.le_of_lt (UInt64.lt_of_le_of_lt h.first_le hlt)
  · intro s hs
    rcases List.mem_append.mp hs with hs | hs
    · obtain ⟨hfirst, hbefore⟩ := h.between s hs
      exact ⟨hfirst, UInt64.lt_trans hbefore hlt⟩
    · obtain rfl := List.mem_singleton.mp hs
      exact ⟨h.first_le, hlt⟩

theorem next (h : a.Leads first batch issued) :
    (a.step .next).Leads first batch (issued ++ (a.issued? .next).toList) := by
  have hnear := h.near
  have hpos := h.covers.batch_pos
  rw [step, issued?]
  rcases a.lease.issue_cases a.db with ⟨hlt, hok⟩ | ⟨-, hroom, hok⟩ | ⟨-, -, herror⟩
  · have hlt := UInt64.lt_iff_toNat_lt.mp hlt
    have hsucc := Lease.toNat_succ hlt a.lease.limit.toNat_lt
    rw [hok]
    refine h.advance hok rfl ?_
    show a.lease.limit.toNat ≤ (a.lease.next + 1).toNat + a.lease.batch.toNat
    omega
  · have hsucc : (a.lease.next + 1).toNat = a.lease.next.toNat + 1 :=
      Lease.toNat_succ (by omega) hroom
    rw [hok]
    refine h.advance hok rfl ?_
    show (a.lease.next + a.lease.batch).toNat ≤ (a.lease.next + 1).toNat + a.lease.batch.toNat
    rw [UInt64.toNat_add]
    have := Nat.mod_le (a.lease.next.toNat + a.lease.batch.toNat) (2 ^ 64)
    omega
  · rw [herror, Option.toList_none, List.append_nil]
    exact h

theorem release (h : a.Leads first batch issued) : (a.step .release).Leads first batch issued where
  covers := Lease.covers_release h.covers
  batch := h.batch
  near := Nat.le_add_right _ _
  first_le := h.first_le
  between := h.between
  increasing := h.increasing

/-- An allocator goes on at the bound, and no serial that was given out has reached it. -/
theorem reopen (h : a.Leads first batch issued) (batch' : UInt64) :
    (a.step (.reopen batch')).Leads first batch' issued := by
  have hle : a.lease.next ≤ a.bound := by
    rw [h.bound_eq, UInt64.le_iff_toNat_le]
    exact h.covers.next_le
  refine ⟨Lease.covers_resume a.db batch', rfl, Nat.le_add_right _ _, ?_, ?_, h.increasing⟩
  · exact UInt64.le_trans h.first_le hle
  · intro s hs
    obtain ⟨hfirst, hbefore⟩ := h.between s hs
    exact ⟨hfirst, UInt64.lt_of_lt_of_le hbefore hle⟩

/-- **One step.** -/
theorem step (h : a.Leads first batch issued) (x : Step) :
    (a.step x).Leads first (batchAfter batch [x]) (issued ++ (a.issued? x).toList) := by
  cases x with
  | next => exact h.next
  | release =>
    show (a.step .release).Leads first batch (issued ++ [])
    rw [List.append_nil]
    exact h.release
  | reopen batch' =>
    show (a.step (.reopen batch')).Leads first batch' (issued ++ [])
    rw [List.append_nil]
    exact h.reopen batch'

/-- **A history.** -/
theorem run (h : a.Leads first batch issued) (steps : List Step) :
    (a.run steps).Leads first (batchAfter batch steps) (issued ++ a.issued steps) := by
  induction steps generalizing a batch issued with
  | nil =>
    rw [Allocator.issued, List.append_nil]
    exact h
  | cons x xs ih =>
    have hrest := ih (h.step x)
    rw [List.append_assoc] at hrest
    exact hrest

end Leads

/-- **An allocator in order**, opened with a batch on a database that held a first bound, after
some serials were given out. -/
structure Orderly (a : Allocator) (first : Serial) (batch : UInt64) (issued : List Serial) :
    Prop where
  /-- Every serial is greater than those before it. -/
  increasing : issued.Pairwise (· < ·)
  /-- No serial is below the first bound, and all of them are below the bound of the database. -/
  within : ∀ s ∈ issued, first ≤ s ∧ s < a.bound
  /-- The bound exceeds the next serial by at most a batch. -/
  near : a.lease.next.toNat ≤ a.bound.toNat ∧
    a.bound.toNat ≤ a.lease.next.toNat + (max batch 1).toNat
  /-- What is given out is the next serial, and the count goes up by one, without overflow. -/
  next : ∀ s, a.issued? .next = some s →
    s = a.lease.next ∧ (a.step .next).lease.next.toNat = a.lease.next.toNat + 1
  /-- No serial is given out exactly where the lease is used up and another batch does not fit. -/
  exhausted : (∃ err, a.lease.issue a.db = .error err) ↔
    a.lease.next = a.bound ∧ UInt64.size ≤ a.lease.next.toNat + (max batch 1).toNat
  /-- A serial that cannot be given out changes nothing. -/
  failed : ∀ err, a.lease.issue a.db = .error err →
    err.message = "Serial allocation failed: serial space exhausted" ∧
      a.issued? .next = none ∧ a.step .next = a
  /-- After a lease was returned, the next allocator goes on at the next serial. -/
  released : ∀ batch', ((a.step .release).step (.reopen batch')).lease.next = a.lease.next
  /-- After a lease was lost, the next allocator leaves out a batch at most. -/
  lost : ∀ batch', a.lease.next.toNat ≤ (a.step (.reopen batch')).lease.next.toNat ∧
    (a.step (.reopen batch')).lease.next.toNat ≤ a.lease.next.toNat + (max batch 1).toNat

theorem Leads.orderly {a : Allocator} {first : Serial} {batch : UInt64} {issued : List Serial}
    (h : a.Leads first batch issued) : a.Orderly first batch issued := by
  have hnext := h.covers.next_le
  have hnear := h.near
  rw [h.batch] at hnear
  have hbounds : a.lease.next.toNat ≤ a.bound.toNat ∧
      a.bound.toNat ≤ a.lease.next.toNat + (max batch 1).toNat := by
    rw [h.bound_eq]
    exact ⟨hnext, hnear⟩
  have hresumed : ∀ batch', (a.step (.reopen batch')).lease.next = a.bound := fun _ => rfl
  refine ⟨h.increasing, ?_, hbounds, ?_, ?_, ?_, ?_, ?_⟩
  · intro s hs
    obtain ⟨hfirst, hbefore⟩ := h.between s hs
    refine ⟨hfirst, UInt64.lt_of_lt_of_le hbefore ?_⟩
    exact UInt64.le_iff_toNat_le.mpr hbounds.1
  · intro s hs
    rw [issued?] at hs
    rw [Allocator.step]
    cases hissue : a.lease.issue a.db with
    | error err =>
      rw [hissue] at hs
      cases hs
    | ok issued =>
      obtain ⟨s', lease, db⟩ := issued
      rw [hissue] at hs
      cases hs
      obtain ⟨rfl, hsucc, -⟩ := Lease.issue_eq_ok h.covers hissue
      exact ⟨rfl, hsucc⟩
  · rw [h.bound_eq, ← h.batch]
    rcases a.lease.issue_cases a.db with ⟨hlt, hok⟩ | ⟨-, hroom, hok⟩ | ⟨hused, hfull, herror⟩
    · refine iff_of_false ?_ ?_
      · rintro ⟨err, herror⟩
        cases hok.symm.trans herror
      · rintro ⟨heq, -⟩
        rw [heq] at hlt
        exact UInt64.lt_irrefl _ hlt
    · refine iff_of_false ?_ ?_
      · rintro ⟨err, herror⟩
        cases hok.symm.trans herror
      · rintro ⟨-, hfull⟩
        omega
    · refine iff_of_true ⟨_, herror⟩ ⟨?_, hfull⟩
      exact UInt64.le_antisymm (UInt64.le_iff_toNat_le.mpr hnext) hused
  · intro err hissue
    rcases a.lease.issue_cases a.db with ⟨-, hok⟩ | ⟨-, -, hok⟩ | ⟨-, -, herror⟩
    · cases hok.symm.trans hissue
    · cases hok.symm.trans hissue
    · cases herror.symm.trans hissue
      rw [issued?, Allocator.step, hissue]
      exact ⟨rfl, rfl, rfl⟩
  · intro batch'
    show ((a.db.settings.insert Database.serialSetting a.lease.next).get?
      Database.serialSetting).getD 0 = a.lease.next
    rw [SortedMap.get?_insert, if_pos rfl, Option.getD_some]
  · intro batch'
    rw [hresumed]
    exact hbounds

/-- **Serials only grow over the life of a database.**  Whatever bound a database holds, and
however its allocators give out serials, return their leases, are dropped and are opened again
with other batches, every serial is greater than all before it, and the allocator is in order. -/
theorem serials_increase (db : Database) (batch : UInt64) (steps : List Step) :
    ((start db batch).run steps).Orderly (start db batch).bound (batchAfter batch steps)
      ((start db batch).issued steps) :=
  ((Leads.start db batch).run steps).orderly

/-- Three serials, two after the lease of the first was lost, and none at the end of the range. -/
example :
    let steps : List Step := [.next, .reopen 0, .next, .release, .reopen 7, .next]
    (start .empty 100).issued steps = [0, 100, 101] ∧
      ((start .empty 100).run steps).bound = 108 := by
  decide

end Allocator
end EventArchive
