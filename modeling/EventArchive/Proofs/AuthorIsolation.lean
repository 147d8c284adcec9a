import EventArchive.Proofs.Contents
import EventArchive.Proofs.Demotion

/-! # Authors do not interfere

What saving an event does is decided by the record of its identifier and by its
rivals, and nothing but these is touched.  A whole record is a rival only if it
is of the same author.  A demoted one shows no author: what its keys hold of the
author are eight bytes, so it is taken for a version of any author that begins
with them.  Every other record of another author is left as it is, and the
outcome is the same as if it were not there.
-/
namespace EventArchive

/-! ### Rivals and other records -/

/-- **The rivals that are found** are the records that compete, each as it is shown. -/
theorem Keyspace.Renders.mem_rivals_iff {k : Keyspace} {L : Ledger} {e : Event} {p : Prior}
    (hr : k.Renders L) (hfits : ∀ s h, L s = some h → h.event.Sized) : p ∈ k.rivals e ↔
      ∃ h, L p.serial = some h ∧ h.RivalOf e ∧ h.shown? = some p.record := by
  constructor
  · exact hr.rivals_sound
  · rintro ⟨h, hL, hrival, hshown⟩
    obtain ⟨p', hp', hserial⟩ := hr.rivals_total hL hrival (hfits _ h hL)
    obtain ⟨h', hL', -, hshown'⟩ := hr.rivals_sound hp'
    rw [hserial, hL] at hL'
    cases hL'
    rw [hshown] at hshown'
    obtain rfl : p' = p := by
      cases p
      cases p'
      simp_all
    exact hp'

/-- The record of another author is no rival, unless it is demoted and keys cannot tell the authors
apart. -/
theorem Holding.not_rivalOf {h : Holding} {e : Event} (hauthor : h.event.pubkey ≠ e.pubkey)
    (hshown : h.stub? = some true → h.event.kind = e.kind →
      h.event.pubkey.head8 ≠ e.pubkey.head8) : ¬ h.RivalOf e := by
  rintro ⟨slot, hslot, hc⟩
  obtain ⟨hpubkey, hkind⟩ := Event.slot?_eq_some hslot
  cases h with
  | live r t =>
    obtain ⟨hpubkey', -⟩ := Event.slot?_eq_some hc
    exact hauthor (hpubkey'.symm.trans hpubkey)
  | demoted r =>
    obtain ⟨-, hhead, hk⟩ := hc
    exact hshown rfl (hk.trans hkind) (hhead.trans (congrArg FixedBytes.head8 hpubkey))
  | queued r => exact hc

/-- **What is no rival stays**, if it is another event. -/
theorem Ledger.Saved.eq_of_not_rival {L L' : Ledger} {rivals : List Prior} {now : UInt64}
    {e : Event} {s r : Serial} {o : SaveOutcome} {h : Holding}
    (hsaved : L.Saved rivals now e s o L') (hL : L r = some h) (hfree : r ≠ s)
    (hne : h.event ≠ e) (hrivals : ∀ p ∈ rivals, p.serial ≠ r) : L' r = L r := by
  cases hsaved with
  | ephemeral => rfl
  | duplicate => rfl
  | superseded => rfl
  | @revived s' _ hL' =>
    apply Function.update_of_ne
    rintro rfl
    rw [hL] at hL'
    cases hL'
    exact hne rfl
  | stored =>
    rw [Function.update_of_ne hfree, Ledger.displace, if_neg]
    intro hmem
    obtain ⟨p, hp, hserial⟩ := List.mem_map.mp hmem
    exact hrivals p hp hserial

/-! ### What the outcome depends on -/

namespace Database
variable {db db' : Database} {e : Event}

/-- What saving under a serial returns depends on the record of the identifier and on the rivals. -/
theorem outcome_saveAs_congr (hlocate : db'.events.locate e.id = db.events.locate e.id)
    (hrivals : ∀ p, p ∈ db'.events.rivals e ↔ p ∈ db.events.rivals e) (now : UInt64) (s : Serial) :
    (db'.saveAs now s e).1 = (db.saveAs now s e).1 := by
  have hall : (db'.events.rivals e).all (·.yieldsTo e) =
      (db.events.rivals e).all (·.yieldsTo e) := by
    rw [Bool.eq_iff_iff, List.all_eq_true, List.all_eq_true]
    exact forall_congr' fun p => imp_congr (hrivals p) Iff.rfl
  rw [saveAs, saveAs, hlocate]
  split
  · rfl
  · rfl
  · dsimp only
    rw [hall]
    split <;> rfl

/-- **What saving returns** depends on the record of the identifier and on the rivals. -/
theorem outcome_save_congr (hlocate : db'.events.locate e.id = db.events.locate e.id)
    (hrivals : ∀ p, p ∈ db'.events.rivals e ↔ p ∈ db.events.rivals e) (lease : Lease)
    (now : UInt64) : (db'.save lease now e).1 = (db.save lease now e).1 := by
  rw [save, save, hlocate]
  split
  · rfl
  split
  · rfl
  -- setting a batch of serials aside changes no record
  have hpersist : ∀ bound s, ((Lease.persist db' bound).saveAs now s e).1 =
      ((Lease.persist db bound).saveAs now s e).1 := by
    intro bound s
    apply outcome_saveAs_congr
    · exact hlocate
    · exact hrivals
  by_cases hfull : lease.limit ≤ lease.next
  · by_cases hroom : lease.next.toNat + lease.batch.toNat < UInt64.size
    · simp only [Lease.issue, if_pos hfull, if_pos hroom]
      exact congrArg Except.ok (hpersist _ _)
    · simp only [Lease.issue, if_pos hfull, if_neg hroom]
  · simp only [Lease.issue, if_neg hfull]
    exact congrArg Except.ok (outcome_saveAs_congr hlocate hrivals now _)

end Database

namespace Tier.Follows
variable {t : Tier} {L : Ledger} {J : List (Serial × Event)} {es : List Event} {e : Event}
  {h : Holding} {r : Serial}

section
variable (hf : t.Follows L J) (hes : Identified es) (hfits : ∀ a ∈ es, a.Sized)
  (hJ : ∀ p ∈ J, p.2 ∈ es) (hL : L r = some h) (hheld : h.stub?.isSome) (hne : h.event.id ≠ e.id)
  (hno : ¬ h.RivalOf e)
include hf hes hL hno

omit hes in
/-- A record that is no rival is not found as one. -/
theorem serial_ne_of_rival {p : Prior} (hp : p ∈ t.db.events.rivals e) : p.serial ≠ r := by
  rintro rfl
  obtain ⟨h', hL', hrival, -⟩ := hf.db.events.rivals_sound hp
  rw [hL] at hL'
  cases hL'
  exact hno hrival

include hJ hheld hne

/-- **Saving leaves what is no rival**: all keys of its serial, and nothing of it is queued. -/
theorem save_spares (he : e ∈ es) (now : UInt64) :
    (∀ key, Key.serial? key = some r →
      (t.step (.save now e)).db.events.get? key = t.db.events.get? key) ∧
    (t.step (.save now e)).db.purge.contains r = false := by
  have hid : ∀ p ∈ J, p.2.id = e.id → p.2 = e := fun p hp => hes _ (hJ p hp) _ he
  obtain ⟨L', J', hf', hsame⟩ : ∃ L' J', (t.step (.save now e)).Follows L' J' ∧ L' r = L r := by
    rcases hf.save hid now with ⟨err, hsave, -⟩ | ⟨o, L', -, hsaved, hf'⟩
    · have hstep : t.step (.save now e) = t := by rw [Tier.step, hsave]
      rw [hstep]
      exact ⟨L, J, hf, rfl⟩
    · refine ⟨L', _, hf', hsaved.eq_of_not_rival hL ?_ (fun heq => hne (congrArg Event.id heq))
        fun p hp => hf.serial_ne_of_rival hL hno hp⟩
      rintro rfl
      rw [hf.next_free] at hL
      cases hL
  refine ⟨fun key hkey => ?_, ?_⟩
  · rw [hf'.db.events.get?_own hkey, hsame, hf.db.events.get?_own hkey]
  · rw [Bool.eq_false_iff]
    intro hqueued
    obtain ⟨e', hL'⟩ := (hf'.db.purge r).mp hqueued
    rw [hsame, hL] at hL'
    cases hL'
    cases hheld

include hfits

/-- **The outcome of saving does not depend on what is no rival.** -/
theorem outcome_save_delete (now : UInt64) :
    ((t.step (.delete h.event)).db.save (t.step (.delete h.event)).lease now e).1 =
      (t.db.save t.lease now e).1 := by
  have hmem : h.event ∈ es := hJ _ (hf.stored r h hL)
  rcases hf.delete fun p hp => hes _ (hJ p hp) _ hmem with
    ⟨s, h', hL', hheld', heq, -, hf'⟩ | ⟨hnone, -⟩
  · obtain rfl : s = r := hf.unique _ _ h' h hL' hL hheld' hheld (congrArg Event.id heq)
    rw [hL] at hL'
    cases hL'
    have hsized := fun s a ha => hfits _ (hJ _ (hf.stored s a ha))
    refine Database.outcome_save_congr ?_ (fun p => ?_) t.lease now
    · refine Option.ext fun found => ?_
      rw [hf'.db.events.locate_eq_some_iff hf'.unique, hf.db.events.locate_eq_some_iff hf.unique]
      refine exists_congr fun a => and_congr_left fun ⟨hid, _⟩ => ?_
      by_cases hs : found.serial = s
      · rw [hs, Function.update_self, hL]
        refine ⟨nofun, fun ha => ?_⟩
        cases ha
        exact absurd hid hne
      · rw [Function.update_of_ne hs]
    · rw [hf'.db.events.mem_rivals_iff ((Ledger.Within.remove L s).sized hsized),
        hf.db.events.mem_rivals_iff hsized]
      refine exists_congr fun a => and_congr_left fun ⟨hrival, _⟩ => ?_
      by_cases hs : p.serial = s
      · rw [hs, Function.update_self, hL]
        refine ⟨nofun, fun ha => ?_⟩
        cases ha
        exact absurd hrival hno
      · rw [Function.update_of_ne hs]
  · exact absurd rfl (hnone r h hL hheld)

end
end Tier.Follows

/-! ### Isolation -/

namespace Tier

/-- **Authors cannot interfere with each other's records**, as far as keys can tell them apart.
After any run of transactions, saving an event leaves every key of a record of another author as it
is and queues nothing of it, and returns what it would return without the record.  Of a demoted
record of the same kind the author has to begin with other bytes. -/
theorem save_isolated (batch : UInt64) {xs : List Transaction} (now : UInt64) {e : Event}
    {x : Entry} (hid : Identified (e :: xs.filterMap (·.event?)))
    (hfits : ∀ a ∈ xs.filterMap (·.event?), a.Sized)
    (hx : contentsAfter batch xs x.event.id = some x) (hauthor : x.event.pubkey ≠ e.pubkey)
    (hshown : x.demoted = true → x.event.kind = e.kind →
      x.event.pubkey.head8 ≠ e.pubkey.head8) :
    let t := (fresh batch).run xs
    let without := t.step (.delete x.event)
    (∀ key, Key.serial? key = some x.serial →
      (t.step (.save now e)).db.events.get? key = t.db.events.get? key) ∧
    (t.step (.save now e)).db.purge.contains x.serial = false ∧
    (without.db.save without.lease now e).1 = (t.db.save t.lease now e).1 := by
  intro t without
  have hids : Identified (xs.filterMap (·.event?)) := fun a ha b hb =>
    hid a (List.mem_cons_of_mem _ ha) b (List.mem_cons_of_mem _ hb)
  obtain ⟨L, hf⟩ := exists_follows batch hids
  have hJ : ∀ p ∈ (fresh batch).journal xs, p.2 ∈ xs.filterMap (·.event?) := fun p hp =>
    mem_of_mem_journal hp
  obtain ⟨h, hL, heq, hstub, -⟩ := hf.contents_eq_some_iff.mp hx
  have hheld : h.stub?.isSome := by rw [hstub]; rfl
  have hno : ¬ h.RivalOf e := by
    apply Holding.not_rivalOf
    · rwa [heq]
    · intro hdemoted
      rw [heq]
      exact hshown (Option.some.inj (hstub.symm.trans hdemoted))
  have hne : h.event.id ≠ e.id := by
    intro hsame
    have hmem : h.event ∈ e :: xs.filterMap (·.event?) :=
      List.mem_cons_of_mem e (hJ _ (hf.stored _ h hL))
    have hsame' : h.event = e := hid _ hmem _ List.mem_cons_self hsame
    exact hauthor (by rw [← heq, hsame'])
  obtain ⟨hkeys, hqueue⟩ := hf.save_spares hid
    (fun p hp => List.mem_cons_of_mem e (hJ p hp)) hL hheld hne hno List.mem_cons_self now
  have houtcome := hf.outcome_save_delete hids hfits hJ hL hheld hne hno now
  rw [heq] at houtcome
  exact ⟨hkeys, hqueue, houtcome⟩

/-- Of two authors whose keys begin with the same eight bytes, the record of one is left alone
while it is whole. -/
theorem save_isolated_whole :
    let key : UInt8 → PublicKey := fun n => ⟨List.replicate 8 7 ++ List.replicate 24 n, rfl⟩
    let r : Event := { Event.uniform 1 7 20 0 [⟨["t", "x"]⟩] with pubkey := key 1 }
    let e : Event := { Event.uniform 2 7 30 0 [] with pubkey := key 2 }
    r.pubkey.head8 = e.pubkey.head8 ∧ contentsAfter 8 [.save 1 r] r.id = some ⟨0, r, false⟩ ∧
      (∀ key, Key.serial? key = some 0 →
        (((fresh 8).run [.save 1 r]).step (.save 2 e)).db.events.get? key =
          ((fresh 8).run [.save 1 r]).db.events.get? key) ∧
      (((fresh 8).run [.save 1 r]).step (.save 2 e)).db.purge.contains 0 = false := by
  intro key r e
  have hid : Identified (e :: [Transaction.save 1 r].filterMap (·.event?)) := by decide +kernel
  have hfits : ∀ a ∈ [Transaction.save 1 r].filterMap (·.event?), a.Sized := by decide +kernel
  have hx : contentsAfter 8 [.save 1 r] r.id = some ⟨0, r, false⟩ := by decide +kernel
  have hauthor : r.pubkey ≠ e.pubkey := by decide +kernel
  obtain ⟨hkeys, hqueue, -⟩ := save_isolated 8 2 (x := ⟨0, r, false⟩) hid hfits hx hauthor
    fun hdemoted => absurd hdemoted Bool.false_ne_true
  exact ⟨rfl, hx, hkeys, hqueue⟩

/-- Once it is demoted, a newer record of the other author displaces it, and an older one is turned
down because of it. -/
theorem save_displaces_neighbour :
    let key : UInt8 → PublicKey := fun n => ⟨List.replicate 8 7 ++ List.replicate 24 n, rfl⟩
    let r : Event := { Event.uniform 1 7 20 0 [⟨["t", "x"]⟩] with pubkey := key 1 }
    let new : Event := { Event.uniform 2 7 30 0 [] with pubkey := key 2 }
    let old : Event := { Event.uniform 3 7 10 0 [] with pubkey := key 2 }
    let xs : List Transaction := [.save 1 r, .sweepRecords [0] true]
    let t := (fresh 8).run xs
    let without := t.step (.delete r)
    Identified [r, new, old] ∧ contentsAfter 8 xs r.id = some ⟨0, r, true⟩ ∧
      r.pubkey ≠ new.pubkey ∧ r.pubkey ≠ old.pubkey ∧ new.kind.retention = .replaceable ∧
      (t.step (.save 2 new)).db.events.record? 0 = none ∧
      (t.step (.save 2 new)).db.purge.contains 0 = true ∧
      (t.db.save t.lease 2 old).1.toOption = some .superseded ∧
      (without.db.save without.lease 2 old).1.toOption = some .stored := by
  decide +kernel

end Tier
end EventArchive
