import EventArchive.Proofs.AuthorIsolation
import EventArchive.Proofs.Convergence
import EventArchive.Proofs.IdLookups

/-! # Demoted versions and the slot they hold

An author has at most one record of a replaceable kind, whole or demoted
(`Ledger.Single`), and it alone decides whether a new version is stored or turned
down.  A whole record is judged by the time of its event, a demoted one by the time
in its keys, which is zero for every time before 1970.  So a demoted version gives
way to what the whole one gives way to, unless it is from before 1970 and the new
version is not newer than its keys say (`Event.LooksNewer`): then it keeps the slot
that it would have lost.
-/
namespace EventArchive

/-! ### One record of an author and kind -/

/-- **A ledger has one record** of an author and kind, if it has any. -/
def Ledger.Single (L : Ledger) (author : PublicKey) (kind : Kind) : Prop :=
  ∀ s s' e e', L.Holds s e → e.IsVersion author kind → L.Holds s' e' → e'.IsVersion author kind →
    s' = s

theorem Ledger.Single.within {L L' : Ledger} {author : PublicKey} {kind : Kind}
    (h : L.Single author kind) (hw : L'.Within L) : L'.Single author kind :=
  fun s s' e e' hholds hversion hholds' hversion' =>
    h s s' e e' (hw.holds hholds) hversion (hw.holds hholds') hversion'

namespace Tier.Follows
variable {t : Tier} {L L' : Ledger} {J : List (Serial × Event)} {es : List Event}
  {author : PublicKey} {kind : Kind} {e m : Event} {s : Serial} {h : Holding} {now : UInt64}

/-- The record of an author and kind competes with every version. -/
theorem rivalOf_of_version (hkind : e.kind.retention = .replaceable) (hheld : h.stub?.isSome)
    (hversion : h.event.IsVersion e.pubkey e.kind) : h.RivalOf e :=
  (Holding.rivalOf_replaceable_iff hkind hheld fun _ => hversion.1).mpr hversion

/-- Saving leaves one record of an author and kind: a version that is stored displaces it. -/
theorem single_saved {o : SaveOutcome} (hf : t.Follows L J) (hJ : ∀ p ∈ J, p.2.Sized)
    (hkind : kind.retention = .replaceable)
    (hsaved : L.Saved (t.db.events.rivals e) now e t.lease.next o L')
    (hsingle : L.Single author kind) : L'.Single author kind := by
  cases hsaved with
  | ephemeral => exact hsingle
  | duplicate => exact hsingle
  | superseded => exact hsingle
  | revived _ hL => exact hsingle.within (.update hL rfl fun _ => rfl)
  | stored =>
    -- what is left of the ledger holds no rival of a version
    have hgone : ∀ {s m}, e.IsVersion author kind → m.IsVersion author kind → L.Holds s m →
        s ∈ (t.db.events.rivals e).map (·.serial) := by
      rintro s m ⟨rfl, rfl⟩ hm ⟨h, hL, hheld, rfl⟩
      obtain ⟨p, hp, rfl⟩ :=
        hf.db.events.rivals_total hL (rivalOf_of_version hkind hheld hm) (hf.sized hJ _ h hL)
      exact List.mem_map_of_mem hp
    intro s₁ s₂ e₁ e₂ hholds₁ hversion₁ hholds₂ hversion₂
    rcases Ledger.holds_stored_iff.mp hholds₁ with ⟨rfl, rfl⟩ | ⟨-, hkept₁, hheld₁⟩
    · rcases Ledger.holds_stored_iff.mp hholds₂ with ⟨rfl, -⟩ | ⟨-, hkept₂, hheld₂⟩
      · rfl
      · exact absurd (hgone hversion₁ hversion₂ hheld₂) hkept₂
    · rcases Ledger.holds_stored_iff.mp hholds₂ with ⟨rfl, rfl⟩ | ⟨-, -, hheld₂⟩
      · exact absurd (hgone hversion₂ hversion₁ hheld₁) hkept₁
      · exact hsingle _ _ _ _ hheld₁ hversion₁ hheld₂ hversion₂

/-- **One transaction** leaves one record of an author and kind. -/
theorem single_step {x : Transaction} (hf : t.Follows L J) (hes : Identified es)
    (hfits : ∀ e ∈ es, e.Sized) (hJ : ∀ p ∈ J, p.2 ∈ es) (hx : ∀ e, x.event? = some e → e ∈ es)
    (hkind : kind.retention = .replaceable) (hsingle : L.Single author kind) :
    ∃ L', (t.step x).Follows L' (J ++ (t.stored? x).toList) ∧ L'.Single author kind := by
  have hid : ∀ e, x.event? = some e → ∀ p ∈ J, p.2.id = e.id → p.2 = e := fun e he p hp =>
    hes _ (hJ p hp) _ (hx e he)
  rcases hf.step_cases x hid with ⟨now, e, o, L', -, -, hsaved, hf'⟩ | ⟨L', hf', -, hw, -⟩
  · exact ⟨L', hf', hf.single_saved (fun p hp => hfits _ (hJ p hp)) hkind hsaved hsingle⟩
  · exact ⟨L', hf', hsingle.within hw⟩

/-- **A run of transactions** leaves one record of an author and kind. -/
theorem single_run {xs : List Transaction} (hf : t.Follows L J) (hes : Identified es)
    (hfits : ∀ e ∈ es, e.Sized) (hJ : ∀ p ∈ J, p.2 ∈ es)
    (hxs : ∀ e ∈ xs.filterMap (·.event?), e ∈ es) (hkind : kind.retention = .replaceable)
    (hsingle : L.Single author kind) :
    ∃ L' J', (t.run xs).Follows L' J' ∧ (∀ p ∈ J', p.2 ∈ es) ∧ L'.Single author kind := by
  induction xs generalizing t L J with
  | nil => exact ⟨L, J, hf, hJ, hsingle⟩
  | cons x xs ih =>
    rw [List.forall_mem_filterMap, List.forall_mem_cons, ← List.forall_mem_filterMap] at hxs
    obtain ⟨L', hf', hsingle'⟩ := hf.single_step hes hfits hJ hxs.1 hkind hsingle
    exact ih hf' (forall_mem_append_stored hJ hxs.1) hxs.2 hsingle'

end Tier.Follows

/-- **A reachable archive has one record** of an author and a replaceable kind, if it has any. -/
theorem Archive.Reached.exists_single {es : List Event} {a : Archive} {kind : Kind}
    (ha : Reached es a) (hid : Identified es) (hfits : ∀ e ∈ es, e.Sized)
    (hkind : kind.retention = .replaceable) (author : PublicKey) :
    ∃ L J, a.tier.Follows L J ∧ (∀ p ∈ J, p.2 ∈ es) ∧ L.Single author kind := by
  obtain ⟨batch, xs, hrun, hxs⟩ := ha.exists_run
  rw [hrun]
  refine (Tier.follows_fresh batch).single_run hid hfits nofun hxs hkind ?_
  rintro s s' e e' ⟨h, hL, -⟩
  cases hL

/-! ### What saving a version returns -/

namespace Database
variable {db : Database} {e : Event}

/-- A new event takes a serial, and is stored if all its rivals give way. -/
theorem outcome_save_of_new (hkind : e.kind.retention ≠ .ephemeral)
    (hnew : db.events.locate e.id = none) (lease : Lease) (now : UInt64) :
    (db.save lease now e).1 = (lease.issue db).map fun _ =>
      if (db.events.rivals e).all (·.yieldsTo e) then .stored else .superseded := by
  have hsaveAs : ∀ {db' : Database} {s : Serial}, db'.events = db.events → (db'.saveAs now s e).1 =
      if (db.events.rivals e).all (·.yieldsTo e) then .stored else .superseded := by
    intro db' s hevents
    rw [saveAs, hevents, hnew]
    dsimp only
    split <;> rfl
  rw [save, if_neg hkind, hnew, if_neg (by exact Bool.false_ne_true)]
  rcases lease.issue_cases db with ⟨-, hissue⟩ | ⟨-, -, hissue⟩ | ⟨-, -, hissue⟩
  · rw [hissue]
    exact congrArg Except.ok (hsaveAs rfl)
  · rw [hissue]
    exact congrArg Except.ok (hsaveAs rfl)
  · rw [hissue]
    rfl

end Database

/-- Whether a lease can give out a serial does not depend on the database. -/
theorem Lease.map_issue {α : Type} (l : Lease) (db db' : Database) (o : α) :
    (l.issue db).map (fun _ => o) = (l.issue db').map fun _ => o := by
  unfold issue
  split
  · split <;> rfl
  · rfl

/-- The identifiers of the records that compete with an event. -/
def Keyspace.slotIds (k : Keyspace) (e : Event) : List EventId := (k.rivals e).map (·.record.id)

theorem Holding.id_of_shown? {h : Holding} {r : Record} (hshown : h.shown? = some r) :
    r.id = h.event.id := by
  cases h with
  | live e t => exact congrArg Record.id (Option.some.inj hshown).symm
  | demoted e => exact congrArg Record.id (Option.some.inj hshown).symm
  | queued e => cases hshown

theorem Holding.isSome_stub?_of_shown? {h : Holding} {r : Record} (hshown : h.shown? = some r) :
    h.stub?.isSome := by
  cases h with
  | live e t => rfl
  | demoted e => rfl
  | queued e => cases hshown

/-- **A slot is contested**: a tier follows a ledger that holds one record of the author and
replaceable kind of an event, and it is of another event and is shown in some form.  There is no
record of another author whose key begins as the author's does. -/
structure Tier.Contested (t : Tier) (L : Ledger) (J : List (Serial × Event)) (e : Event)
    (s : Serial) (h : Holding) (r : Record) : Prop where
  follows : t.Follows L J
  sized : ∀ p ∈ J, p.2.Sized
  authors : ∀ s' m, L.Holds s' m → m.pubkey.head8 = e.pubkey.head8 → m.pubkey = e.pubkey
  identified : ∀ p ∈ J, p.2.id = e.id → p.2 = e
  kind : e.kind.retention = .replaceable
  single : L.Single e.pubkey e.kind
  held : L s = some h
  version : h.event.IsVersion e.pubkey e.kind
  shown : h.shown? = some r
  other : h.event.id ≠ e.id

namespace Tier
variable {t : Tier} {L : Ledger} {J : List (Serial × Event)} {e : Event} {s : Serial} {h : Holding}
  {r : Record} {now : UInt64}

/-- The one record of the author and kind is all that competes. -/
theorem Follows.rivals_eq (hf : t.Follows L J) (hJ : ∀ p ∈ J, p.2.Sized)
    (hauthors : ∀ s' m, L.Holds s' m → m.pubkey.head8 = e.pubkey.head8 → m.pubkey = e.pubkey)
    (hkind : e.kind.retention = .replaceable) (hsingle : L.Single e.pubkey e.kind)
    (hL : L s = some h) (hversion : h.event.IsVersion e.pubkey e.kind)
    (hshown : h.shown? = some r) : t.db.events.rivals e = [⟨s, r⟩] := by
  have hheld := Holding.isSome_stub?_of_shown? hshown
  have hnodup : (t.db.events.rivals e).Nodup := (hf.db.events.rivals_nodup e).of_map
  refine List.perm_singleton.mp ((List.perm_ext_iff_of_nodup hnodup (List.nodup_singleton _)).mpr
    fun p => ?_)
  rw [hf.db.events.mem_rivals_iff (hf.sized hJ), List.mem_singleton]
  constructor
  · rintro ⟨h', hL', hrival, hshown'⟩
    obtain ⟨hhead, hk⟩ := hrival.head8_eq
    have hversion' : h'.event.IsVersion e.pubkey e.kind :=
      ⟨hauthors _ _ ⟨h', hL', hrival.isSome_stub?, rfl⟩ hhead, hk⟩
    have hserial : p.serial = s := hsingle s p.serial _ _ ⟨h, hL, hheld, rfl⟩ hversion
      ⟨h', hL', hrival.isSome_stub?, rfl⟩ hversion'
    rw [hserial] at hL'
    obtain rfl := Option.some.inj (hL'.symm.trans hL)
    obtain rfl := Option.some.inj (hshown.symm.trans hshown')
    cases p
    exact congrArg (Prior.mk · _) hserial
  · rintro rfl
    exact ⟨h, hL, Follows.rivalOf_of_version hkind hheld hversion, hshown⟩

namespace Contested
variable (hc : t.Contested L J e s h r)
include hc

theorem rivals_eq : t.db.events.rivals e = [⟨s, r⟩] :=
  hc.follows.rivals_eq hc.sized hc.authors hc.kind hc.single hc.held hc.version hc.shown

theorem slotIds_eq : t.db.events.slotIds e = [h.event.id] := by
  rw [Keyspace.slotIds, hc.rivals_eq, List.map_singleton, Holding.id_of_shown? hc.shown]

/-- The event that contests the slot is new. -/
theorem new {s' : Serial} {h' : Holding} (hL' : L s' = some h') (hheld' : h'.stub?.isSome) :
    h'.event.id ≠ e.id := by
  intro hsame
  have heq : h'.event = e := hc.identified _ (hc.follows.stored s' h' hL') hsame
  have hheld := Holding.isSome_stub?_of_shown? hc.shown
  have hserial : s' = s := hc.single s s' _ _ ⟨h, hc.held, hheld, rfl⟩ hc.version
    ⟨h', hL', hheld', rfl⟩ (heq ▸ ⟨rfl, rfl⟩)
  rw [hserial] at hL'
  obtain rfl := Option.some.inj (hL'.symm.trans hc.held)
  exact hc.other hsame

/-- **What saving returns** in a contested slot is decided by how the record is shown. -/
theorem outcome_save : (t.db.save t.lease now e).1 = (t.lease.issue t.db).map fun _ =>
    if isOlder r.createdAt r.id e.createdAt e.id then .stored else .superseded := by
  have hnew : t.db.events.locate e.id = none :=
    (hc.follows.db.events.locate_eq_none_iff hc.follows.unique).mpr fun _ _ => hc.new
  have hstored : e.kind.retention ≠ .ephemeral := by
    rw [hc.kind]
    nofun
  rw [Database.outcome_save_of_new hstored hnew, hc.rivals_eq, List.all_cons, List.all_nil,
    Bool.and_true]
  rfl

/-- **What saving leaves** in a contested slot: the event if it was stored, and the record
otherwise. -/
theorem slotIds_save (hsized : e.Sized) : (t.step (.save now e)).db.events.slotIds e =
    if (t.db.save t.lease now e).1.toOption = some .stored then [e.id] else [h.event.id] := by
  rcases hc.follows.save hc.identified now with ⟨err, hsave, -⟩ | ⟨o, L', hok, hsaved, hf'⟩
  · have hstep : t.step (.save now e) = t := by rw [Tier.step, hsave]
    rw [hstep, hsave, if_neg fun h => by cases h]
    exact hc.slotIds_eq
  · rw [hok]
    cases hsaved with
    | ephemeral hephemeral =>
      rw [hc.kind] at hephemeral
      cases hephemeral
    | duplicate _ hL' hsame => exact absurd hsame (hc.new hL' rfl)
    | revived _ hL' => exact absurd rfl (hc.new hL' rfl)
    | superseded =>
      have hsame : (t.step (.save now e)).db.events = t.db.events :=
        (hc.follows.db.tables_eq hf'.db).1
      rw [if_neg (fun h => by cases h), hsame]
      exact hc.slotIds_eq
    | stored hstored hnew hyield =>
      have hJ : ∀ p ∈ J ++ (t.stored? (.save now e)).toList, p.2.Sized :=
        forall_mem_append_stored hc.sized fun a ha => (Option.some.inj ha) ▸ hsized
      have hauthors : ∀ s' m,
          Ledger.Holds (Function.update (L.displace ((t.db.events.rivals e).map (·.serial)))
            t.lease.next (some (.live e now))) s' m →
          m.pubkey.head8 = e.pubkey.head8 → m.pubkey = e.pubkey := by
        intro s' m hholds
        rcases Ledger.holds_stored_iff.mp hholds with ⟨-, rfl⟩ | ⟨-, -, hheld⟩
        · exact fun _ => rfl
        · exact hc.authors s' m hheld
      have hsaved : L.Saved (t.db.events.rivals e) now e t.lease.next .stored _ :=
        .stored hstored hnew hyield
      have hsingle := hc.follows.single_saved hc.sized hc.kind hsaved hc.single
      rw [if_pos (by rfl), Keyspace.slotIds,
        hf'.rivals_eq hJ hauthors hc.kind hsingle (Function.update_self ..) ⟨rfl, rfl⟩ rfl]
      rfl

end Contested

/-- Demoting records is demoting them in the ledger. -/
theorem Follows.demote (hf : t.Follows L J) (hJ : ∀ p ∈ J, p.2.Sized) (victims : List Serial) :
    (t.step (.sweepRecords victims true)).Follows (L.demote victims) J := by
  rw [← Ledger.swept_eq_demote (hf.sized hJ)]
  exact hf.of_within (hf.db.sweepRecords victims true) (.sweep L _ _)
    (EventTier.tables_sweep t.db victims true).2 rfl

/-- A slot is still contested after its record was demoted. -/
theorem Contested.demote {p : Event} {access : UInt64}
    (hc : t.Contested L J e s (.live p access) r) :
    (t.step (.sweepRecords [s] true)).Contested (L.demote [s]) J e s (.demoted p)
      (.stub p.id (timeOfClamped (clampTime p.createdAt))) where
  follows := hc.follows.demote hc.sized [s]
  sized := hc.sized
  authors := fun s' m hholds => hc.authors s' m ((L.demote_within [s]).holds hholds)
  identified := hc.identified
  kind := hc.kind
  single := hc.single.within (L.demote_within [s])
  held := by
    rw [Ledger.demote, if_pos List.mem_cons_self, hc.held]
    rfl
  version := hc.version
  shown := rfl
  other := hc.other

end Tier

/-! ### Times before 1970 -/

namespace Event
variable {p e : Event}

/-- Whether an event is from before 1970 and gives way to another one, but would not at the time
that its keys hold. -/
def LooksNewer (p e : Event) : Prop :=
  p.createdAt < 0 ∧ p.isOlderThan e = true ∧ isOlder 0 p.id e.createdAt e.id = false

instance (p e : Event) : Decidable (p.LooksNewer e) :=
  inferInstanceAs (Decidable (p.createdAt < 0 ∧ p.isOlderThan e = true ∧
    isOlder 0 p.id e.createdAt e.id = false))

theorem not_looksNewer (h : 0 ≤ p.createdAt ∨ 0 < e.createdAt) : ¬ p.LooksNewer e := by
  rintro ⟨hneg, -, hnot⟩
  rcases h with hpos | hpos
  · exact Int64.not_lt.mpr hpos hneg
  · have holder : isOlder 0 p.id e.createdAt e.id = true := isOlder_iff.mpr (.inl hpos)
    rw [hnot] at holder
    cases holder

/-- The keys of a time before 1970 hold the first second of it. -/
theorem timeOfClamped_of_neg {t : Int64} (h : t < 0) : timeOfClamped (clampTime t) = 0 := by
  have hzero : clampTime t = 0 := by
    apply UInt64.toNat_inj.mp
    rw [clampTime_toNat]
    have hneg : t.toInt < 0 := by simpa [Int64.lt_iff_toInt_lt] using h
    rw [Int.toNat_of_nonpos (Int.le_of_lt hneg)]
    rfl
  rw [hzero]
  rfl

/-- A demoted event gives way where the whole one does, unless it looks newer than it is. -/
theorem isOlder_shown (p e : Event) :
    isOlder (timeOfClamped (clampTime p.createdAt)) p.id e.createdAt e.id =
      (p.isOlderThan e && !decide (p.LooksNewer e)) := by
  by_cases hneg : p.createdAt < 0
  · rw [timeOfClamped_of_neg hneg]
    cases hshown : isOlder 0 p.id e.createdAt e.id with
    | true =>
      -- an event that is newer than the first second is newer than all before it
      have holder : p.isOlderThan e = true := by
        rw [isOlderThan, isOlder_iff]
        rcases isOlder_iff.mp hshown with hlt | ⟨heq, -⟩
        · exact .inl (Int64.lt_trans hneg hlt)
        · exact .inl (heq ▸ hneg)
      have hnot : ¬ p.LooksNewer e := by
        rintro ⟨-, -, hfalse⟩
        rw [hshown] at hfalse
        cases hfalse
      rw [holder, decide_eq_false hnot]
      rfl
    | false =>
      cases holder : p.isOlderThan e with
      | true =>
        rw [decide_eq_true ⟨hneg, holder, hshown⟩]
        rfl
      | false => rfl
  · have hpos : 0 ≤ p.createdAt := Int64.not_lt.mp hneg
    rw [timeOfClamped_clampTime hpos, decide_eq_false (not_looksNewer (.inl hpos))]
    show p.isOlderThan e = _
    rw [Bool.not_false, Bool.and_true]

end Event

/-! ### Saving over a demoted version -/

namespace Archive

/-- What saving in a contested slot returns, by whether the record in it gives way. -/
def outcomeIf (a : Archive) (yields : Bool) : Except ArchiveError SaveOutcome :=
  if a.isClosed then .error .closed
  else (a.lease.issue a.db).map fun _ => if yields then .stored else .superseded

theorem outcomeIf_demote (a : Archive) (victims : List Serial) (yields : Bool) :
    (a.demote victims).outcomeIf yields = a.outcomeIf yields := by
  rw [outcomeIf, outcomeIf, Lease.map_issue a.lease a.db (a.demote victims).db]
  rfl

/-- Where a version would be stored, it is turned down if the record does not give way. -/
theorem outcomeIf_false {a : Archive} (hstored : a.outcomeIf true = .ok .stored) :
    a.outcomeIf false = .ok .superseded := by
  rw [outcomeIf] at hstored ⊢
  cases hclosed : a.isClosed with
  | true =>
    rw [hclosed, if_pos rfl] at hstored
    cases hstored
  | false =>
    cases hissue : a.lease.issue a.db with
    | ok issued => rfl
    | error err =>
      rw [hclosed, hissue] at hstored
      cases hstored

/-- Saving in an open archive is saving in its tables, and a closed one saves nothing. -/
theorem save_contested {a : Archive} {L : Ledger} {J : List (Serial × Event)} {e : Event}
    {s : Serial} {h : Holding} {r : Record} (hc : a.tier.Contested L J e s h r) (hsized : e.Sized)
    (now : Int64) :
    (a.save now e).1 = a.outcomeIf (isOlder r.createdAt r.id e.createdAt e.id) ∧
    (a.save now e).2.db.events.slotIds e =
      if (a.save now e).1.toOption = some .stored then [e.id] else [h.event.id] := by
  cases hclosed : a.isClosed with
  | false =>
    rw [save_eq hclosed, outcomeIf, hclosed, if_neg Bool.false_ne_true]
    exact ⟨hc.outcome_save, hc.slotIds_save hsized⟩
  | true =>
    have hsave : a.save now e = (.error .closed, a) := by
      simp only [save, ensureOpen, hclosed]
      rfl
    rw [hsave, outcomeIf, hclosed, if_pos rfl, if_neg (fun h => by cases h)]
    exact ⟨rfl, hc.slotIds_eq⟩

/-- The whole record of an author and a replaceable kind contests the slot of a new version. -/
theorem Reached.exists_contested {es : List Event} {a : Archive} (ha : Reached es a) {e p : Event}
    {s : Serial} (hid : Identified (e :: es)) (hfits : ∀ x ∈ e :: es, x.Sized)
    (hkind : e.kind.retention = .replaceable)
    (hauthors : ∀ x ∈ es, a.db.events.locate x.id ≠ none →
      x.pubkey.head8 = e.pubkey.head8 → x.pubkey = e.pubkey)
    (hlive : a.db.events.read? s = some (.full p)) (hversion : p.IsVersion e.pubkey e.kind)
    (hne : p.id ≠ e.id) :
    ∃ L J access, a.tier.Contested L J e s (.live p access) (.full p) := by
  rw [List.forall_mem_cons] at hfits
  obtain ⟨L, J, hf, hmem, hsingle⟩ := ha.exists_single
    (fun x hx y hy => hid x (List.mem_cons_of_mem _ hx) y (List.mem_cons_of_mem _ hy))
    hfits.2 hkind e.pubkey
  have hsized : ∀ q ∈ J, q.2.Sized := fun q hq => hfits.2 _ (hmem q hq)
  obtain ⟨access, hL⟩ := (hf.db.events.read?_eq_full_iff (hf.sized hsized)).mp hlive
  refine ⟨L, J, access, hf, hsized, ?_, fun q hq => ?_, hkind, hsingle, hL, hversion, rfl, hne⟩
  · rintro s' m ⟨h, hL', hheld, rfl⟩
    refine hauthors _ (hmem _ (hf.stored s' h hL')) fun hnone => ?_
    exact (hf.db.events.locate_eq_none_iff hf.unique).mp hnone s' h hL' hheld rfl
  · exact hid _ (List.mem_cons_of_mem _ (hmem q hq)) _ List.mem_cons_self

/-- **Demoting the version that holds a slot does not change what saving another one does**, unless
it is from before 1970 and looks newer than it is.  Whether the record of the author and kind is
whole or was demoted before, saving returns the same and leaves the same identifier in the slot.
Where the demoted version looks newer than it is, the whole one gives way to what is stored, and the
demoted one keeps the slot. -/
theorem save_over_demoted {es : List Event} {a : Archive} (ha : Reached es a) {e p : Event}
    {s : Serial} (hid : Identified (e :: es)) (hfits : ∀ x ∈ e :: es, x.Sized)
    (hkind : e.kind.retention = .replaceable)
    (hauthors : ∀ x ∈ es, a.db.events.locate x.id ≠ none →
      x.pubkey.head8 = e.pubkey.head8 → x.pubkey = e.pubkey)
    (hlive : a.db.events.read? s = some (.full p)) (hversion : p.IsVersion e.pubkey e.kind)
    (hne : p.id ≠ e.id) (now now' : Int64) :
    let live := a.save now e
    let demoted := (a.demote [s]).save now' e
    (¬ p.LooksNewer e → demoted.1 = live.1 ∧
      demoted.2.db.events.slotIds e = live.2.db.events.slotIds e) ∧
    (p.LooksNewer e → live.1 = .ok .stored → demoted.1 = .ok .superseded ∧
      live.2.db.events.slotIds e = [e.id] ∧ demoted.2.db.events.slotIds e = [p.id]) ∧
    live.2.db.events.slotIds e = (if live.1.toOption = some .stored then [e.id] else [p.id]) ∧
    demoted.2.db.events.slotIds e =
      (if demoted.1.toOption = some .stored then [e.id] else [p.id]) := by
  intro live demoted
  obtain ⟨L, J, access, hc⟩ :=
    ha.exists_contested hid hfits hkind hauthors hlive hversion hne
  have hsized : e.Sized := hfits e List.mem_cons_self
  obtain ⟨houtcome, hslot⟩ : live.1 = a.outcomeIf (p.isOlderThan e) ∧
      live.2.db.events.slotIds e = if live.1.toOption = some .stored then [e.id] else [p.id] :=
    save_contested hc hsized now
  obtain ⟨houtcome', hslot'⟩ :
      demoted.1 = (a.demote [s]).outcomeIf
        (isOlder (timeOfClamped (clampTime p.createdAt)) p.id e.createdAt e.id) ∧
      demoted.2.db.events.slotIds e =
        if demoted.1.toOption = some .stored then [e.id] else [p.id] :=
    save_contested (a := a.demote [s]) hc.demote hsized now'
  rw [outcomeIf_demote, p.isOlder_shown] at houtcome'
  refine ⟨fun hnot => ?_, fun hlooks hstored => ?_, hslot, hslot'⟩
  · have hsame : demoted.1 = live.1 := by
      rw [houtcome', houtcome, decide_eq_false hnot, Bool.not_false, Bool.and_true]
    exact ⟨hsame, by rw [hslot', hslot, hsame]⟩
  · have hturned : demoted.1 = .ok .superseded := by
      rw [houtcome', decide_eq_true hlooks, Bool.not_true, Bool.and_false]
      refine outcomeIf_false ?_
      rw [← hlooks.2.1, ← houtcome, hstored]
    refine ⟨hturned, ?_, ?_⟩
    · rw [hslot, hstored]
      exact if_pos rfl
    · rw [hslot', hturned]
      exact if_neg fun h => by cases h

/-- Two versions of a profile are of the times −10 and −5.  The newer one displaces the older one if
that is whole, and is turned down if it was demoted, as its keys say that it is of the time 0. -/
theorem save_over_demoted_differs :
    let p : Event := .uniform 1 7 (-10) 0 []
    let e : Event := .uniform 2 7 (-5) 0 []
    let a := fresh.saveAll 5 [p]
    let live := a.save 6 e
    let demoted := (a.demote [0]).save 6 e
    Reached [p] a ∧ e.kind.retention = .replaceable ∧ a.db.events.read? 0 = some (.full p) ∧
      p.IsVersion e.pubkey e.kind ∧ p.id ≠ e.id ∧
      live.1.toOption = some .stored ∧ live.2.db.events.slotIds e = [e.id] ∧
      demoted.1.toOption = some .superseded ∧ demoted.2.db.events.slotIds e = [p.id] := by
  intro p e a live demoted
  exact ⟨Reached.fresh.saveAll 5 [p], by decide +kernel, by decide +kernel, by decide +kernel,
    by decide +kernel, by decide +kernel, by decide +kernel, by decide +kernel, by decide +kernel⟩

/-- A profile of the time −10, whole or demoted, gives way to one of the time 0 whose identifier is
before its own. -/
theorem save_over_demoted_epoch :
    let p : Event := .uniform 2 7 (-10) 0 []
    let e : Event := .uniform 1 7 0 0 []
    let a := fresh.saveAll 5 [p]
    let live := a.save 6 e
    let demoted := (a.demote [0]).save 6 e
    ¬ p.LooksNewer e ∧ live.1.toOption = some .stored ∧ demoted.1 = live.1 ∧
      demoted.2.db.events.slotIds e = [e.id] := by
  intro p e a live demoted
  have ha : Reached [p] a := Reached.fresh.saveAll 5 [p]
  have hnot : ¬ p.LooksNewer e := by decide +kernel
  have hstored : live.1.toOption = some .stored := by decide +kernel
  have hlive : a.db.events.read? 0 = some (.full p) := by decide +kernel
  obtain ⟨hsame, -, -, hids⟩ := save_over_demoted ha (e := e)
    (by decide +kernel) (by decide +kernel) (by decide +kernel) (by decide +kernel) hlive
    (by decide +kernel) (by decide +kernel) 6 6
  obtain ⟨houtcome, -⟩ := hsame hnot
  refine ⟨hnot, hstored, houtcome, ?_⟩
  rw [hids, houtcome, hstored, if_pos rfl]

end Archive
end EventArchive
