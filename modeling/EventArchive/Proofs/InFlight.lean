import EventArchive.Proofs.TieredRetention

/-! # Deleted events and copies in flight

A lookup and a poll read an event in the secondary tier and save it in the local
one later on, as if it were new.  What was read in the meantime is in flight, and
each tier is changed on its own: a tiered save or deletion is one change of each
(`Transit`, `Move`).  Every action of a tiered archive is a run of such moves
(`Ongoing.step_moves`).

Nothing remembers that an event was deleted.  A copy that is in flight when the
deletion completes brings the event back when it lands
(`Transit.delete_undone`).  But a tier from which an event was deleted has it
again only when it is saved, so the secondary tier gives out no more copies: the
event comes back by the landing of a copy that was in flight already, and each
lands once (`Transit.delete_completed`).  If nothing is outstanding, whatever is
done to a tiered archive leaves the event out of both tiers
(`Ongoing.lacks_run`).
-/
namespace EventArchive

/-! ### One tier -/

namespace Ledger
variable {L L' : Ledger} {i : EventId} {e : Event}

/-- A ledger has no record of an identifier. -/
def Lacks (L : Ledger) (i : EventId) : Prop :=
  ∀ s h, L s = some h → h.stub?.isSome → h.event.id ≠ i

theorem Lacks.within (h : L.Lacks i) (hw : L'.Within L) : L'.Lacks i := by
  intro s held' hL' hheld'
  obtain ⟨held, hL, hevent, hstub⟩ := hw s held' hL'
  rw [← hevent]
  exact h s held hL (hstub hheld')

/-- Saving an event makes no record of another identifier. -/
theorem Lacks.saved {rivals : List Prior} {now : UInt64} {s : Serial} {o : SaveOutcome}
    (h : L.Lacks i) (hsaved : L.Saved rivals now e s o L') (hne : e.id ≠ i) : L'.Lacks i := by
  cases hsaved with
  | ephemeral => exact h
  | duplicate => exact h
  | revived _ hL => exact h.within (.update hL rfl fun _ => rfl)
  | superseded => exact h
  | stored =>
    intro s' held hL' hheld
    by_cases heq : s' = s
    · subst heq
      rw [Function.update_self] at hL'
      cases hL'
      exact hne
    · rw [Function.update_of_ne heq] at hL'
      exact h.within (.displace L _) s' held hL' hheld

/-- Without its one record a ledger lacks an event. -/
theorem lacks_remove {s : Serial} {h : Holding} (hu : L.Unique) (hL : L s = some h)
    (hheld : h.stub?.isSome) : Lacks (Function.update L s none) h.event.id := by
  intro s' h' hL' hheld' hid
  by_cases heq : s' = s
  · subst heq
    rw [Function.update_self] at hL'
    cases hL'
  · rw [Function.update_of_ne heq] at hL'
    exact heq (hu s' s h' h hL' hL hheld' hheld hid)

end Ledger

/-- The events that a transaction may store. -/
def Transaction.saves? : Transaction → Option Event
  | .save _ e => some e
  | _ => none

theorem Transaction.Notes.saves? {x : Transaction} (h : x.Notes) : x.saves? = none := by
  cases x with
  | touch batch now => rfl
  | _ => exact h.elim

namespace Tier.Follows
variable {t : Tier} {L : Ledger} {J : List (Serial × Event)} {i : EventId}

/-- **One transaction** makes no record of an identifier, unless it saves an event of it. -/
theorem lacks_step (hf : t.Follows L J) (x : Transaction)
    (hid : ∀ e, x.event? = some e → ∀ p ∈ J, p.2.id = e.id → p.2 = e)
    (hother : ∀ e, x.saves? = some e → e.id ≠ i) (h : L.Lacks i) :
    ∃ L', (t.step x).Follows L' (J ++ (t.stored? x).toList) ∧ L'.Lacks i := by
  rcases hf.step_cases x hid with ⟨now, e, o, L', rfl, -, hsaved, hf'⟩ | ⟨L', hf', -, hw, -⟩
  · exact ⟨L', hf', h.saved hsaved (hother e rfl)⟩
  · exact ⟨L', hf', h.within hw⟩

/-- **A run of transactions** makes no record of an identifier, unless it saves an event of it. -/
theorem lacks_run {es : List Event} {xs : List Transaction} (hf : t.Follows L J)
    (hid : Identified es) (hJ : ∀ p ∈ J, p.2 ∈ es) (hxs : ∀ e ∈ xs.filterMap (·.event?), e ∈ es)
    (hother : ∀ e ∈ xs.filterMap (·.saves?), e.id ≠ i) (h : L.Lacks i) :
    ∃ L' J', (t.run xs).Follows L' J' ∧ L'.Lacks i := by
  induction xs generalizing t L J with
  | nil => exact ⟨L, J, hf, h⟩
  | cons x xs ih =>
    rw [List.forall_mem_filterMap, List.forall_mem_cons, ← List.forall_mem_filterMap] at hxs hother
    obtain ⟨L', hf', h'⟩ := hf.lacks_step x
      (fun e he p hp => hid _ (hJ p hp) _ (hxs.1 e he)) hother.1 h
    exact ih hf' (forall_mem_append_stored hJ hxs.1) hxs.2 hother.2 h'

end Tier.Follows

namespace Archive

/-- An archive has no record of an identifier, neither whole nor demoted. -/
def Lacks (a : Archive) (i : EventId) : Prop := a.db.events.locate i = none

instance (a : Archive) (i : EventId) : Decidable (a.Lacks i) :=
  inferInstanceAs (Decidable (a.db.events.locate i = none))

namespace Serves
variable {a : Archive} {es : List Event} {i : EventId} {e : Event}

theorem lacks_run (h : a.Serves es) (hid : Identified es) (xs : List Transaction)
    (hxs : ∀ e ∈ xs.filterMap (·.event?), e ∈ es)
    (hother : ∀ e ∈ xs.filterMap (·.saves?), e.id ≠ i) (hlacks : a.Lacks i) :
    (a.withTier (a.tier.run xs)).Lacks i := by
  obtain ⟨L, J, hf, hJ⟩ := h.follows
  have hL : L.Lacks i := (hf.db.events.locate_eq_none_iff hf.unique).mp hlacks
  obtain ⟨L', J', hf', hL'⟩ := hf.lacks_run hid hJ hxs hother hL
  exact (hf'.db.events.locate_eq_none_iff hf'.unique).mpr hL'

/-- **An event that is deleted is gone.** -/
theorem lacks_deleted (h : a.Serves es) (hid : Identified es) (he : e ∈ es) :
    (a.delete e).2.Lacks e.id := by
  obtain ⟨L, J, hf, hJ⟩ := h.follows
  have hsame : ∀ p ∈ J, p.2.id = e.id → p.2 = e := fun p hp => hid _ (hJ p hp) _ he
  rw [delete_eq h.isOpen]
  rcases hf.delete hsame with ⟨s, held, hL, hheld, rfl, -, hf'⟩ | ⟨hnone, hdelete⟩
  · exact (hf'.db.events.locate_eq_none_iff hf'.unique).mpr
      (Ledger.lacks_remove hf.unique hL hheld)
  · have hstep : a.tier.step (.delete e) = a.tier := by rw [Tier.step, hdelete]
    rw [hstep]
    exact (hf.db.events.locate_eq_none_iff hf.unique).mpr hnone

section
variable (h : a.Serves es) (hid : Identified es) (hlacks : a.Lacks i)
include h hid hlacks

/-- Saving another event does not bring an event back. -/
theorem lacks_save (he : e ∈ es) (hne : e.id ≠ i) (now : Int64) : (a.save now e).2.Lacks i := by
  rw [save_eq h.isOpen]
  refine h.lacks_run hid [.save (clampTime now) e] (fun e' he' => ?_) (fun e' he' => ?_) hlacks
  · obtain rfl := List.mem_singleton.mp he'
    exact he
  · obtain rfl := List.mem_singleton.mp he'
    exact hne

theorem lacks_delete (he : e ∈ es) : (a.delete e).2.Lacks i := by
  rw [delete_eq h.isOpen]
  refine h.lacks_run hid [.delete e] (fun e' he' => ?_) nofun hlacks
  obtain rfl := List.mem_singleton.mp he'
  exact he

theorem lacks_collect : a.collect.2.Lacks i := by
  obtain ⟨victims, stale, heq⟩ := collect_eq h.isOpen
  rw [heq]
  exact h.lacks_run hid _ nofun nofun hlacks

theorem lacks_noteAccesses (now : Int64) (hits : List Hit) : (a.noteAccesses now hits).Lacks i := by
  obtain ⟨xs, heq, hxs⟩ := a.noteAccesses_eq now hits
  rw [heq]
  refine h.lacks_run hid xs (fun e he => ?_) (fun e he => ?_) hlacks
  · rw [List.filterMap_eq_nil_iff.mpr fun x hx => (hxs x hx).event?] at he
    cases he
  · rw [List.filterMap_eq_nil_iff.mpr fun x hx => (hxs x hx).saves?] at he
    cases he

end

/-- A lookup of an identifier that an archive lacks finds nothing. -/
theorem id_ne_of_stored (h : a.Serves es) (hfits : ∀ e ∈ es, e.Sized) (hlacks : a.Lacks i)
    (he : e ∈ a.db.events.storedEvents) : e.id ≠ i := by
  obtain ⟨L, J, hf, hJ, s, access, hL⟩ := h.exists_live hfits he
  exact (hf.db.events.locate_eq_none_iff hf.unique).mp hlacks s _ hL rfl

end Serves
end Archive

/-! ### Moves -/

/-- One of two tiers. -/
inductive Side where
  | primary
  | secondary
  deriving DecidableEq

namespace Side

def other : Side → Side
  | primary => secondary
  | secondary => primary

end Side

/-- Two tiers, and the events that were read in the secondary one and have still to be saved in the
local one. -/
structure Transit where
  primary : Archive
  secondary : Archive
  inFlight : List Event

/-- What happens to two tiers.  Each is changed on its own, and what is read is saved later on. -/
inductive Move where
  | save (side : Side) (now : Int64) (event : Event)
  | delete (side : Side) (event : Event)
  | collect (side : Side)
  | note (side : Side) (now : Int64) (hits : List Hit)
  /-- Look an event up in the secondary tier. -/
  | lookup (id : EventId)
  /-- Read the record at a place of what the secondary tier sends for a window of time. -/
  | poll (since till : Int64) (n : Nat)
  /-- Save one of the events that are in flight in the local tier. -/
  | land (now : Int64) (n : Nat)
  /-- Give up one of the events that are in flight. -/
  | drop (n : Nat)

namespace Move

/-- The event that a client gives. -/
def event? : Move → Option Event
  | .save _ _ e => some e
  | .delete _ e => some e
  | _ => none

/-- The event that a client saves. -/
def saves? : Move → Option Event
  | .save _ _ e => some e
  | _ => none

end Move

namespace Transit

/-- One of the tiers. -/
def tier (s : Transit) : Side → Archive
  | .primary => s.primary
  | .secondary => s.secondary

/-- Change one tier. -/
def change (s : Transit) (f : Archive → Archive) : Side → Transit
  | .primary => { s with primary := f s.primary }
  | .secondary => { s with secondary := f s.secondary }

/-- What was read is in flight. -/
def read (s : Transit) (found : Option Event) : Transit :=
  { s with inFlight := s.inFlight ++ found.toList }

/-- The event that a lookup finds. -/
def found? (s : Transit) (i : EventId) : Option Event :=
  match (Link.undisturbed.fetch s.secondary i).1 with
  | .found e => some e
  | .absent => none
  | .failed => none

/-- The event at a place of what the secondary tier sends for a window of time. -/
def polled? (s : Transit) (since till : Int64) (n : Nat) : Option Event :=
  match s.secondary.feed (Poller.window since till) false with
  | .ok feed => feed.records[n]?.bind (·.record.event?)
  | .error _ => none

/-- The two tiers after a move. -/
def step (s : Transit) : Move → Transit
  | .save side now e => s.change (fun a => (a.save now e).2) side
  | .delete side e => s.change (fun a => (a.delete e).2) side
  | .collect side => s.change (fun a => a.collect.2) side
  | .note side now hits => s.change (fun a => a.noteAccesses now hits) side
  | .lookup i => s.read (s.found? i)
  | .poll since till n => s.read (s.polled? since till n)
  | .land now n =>
    match s.inFlight[n]? with
    | none => s
    | some e => { s with primary := (s.primary.save now e).2, inFlight := s.inFlight.eraseIdx n }
  | .drop n => { s with inFlight := s.inFlight.eraseIdx n }

/-- The two tiers after some moves. -/
def run (s : Transit) (xs : List Move) : Transit := xs.foldl step s

theorem run_append (s : Transit) (xs ys : List Move) : s.run (xs ++ ys) = (s.run xs).run ys :=
  List.foldl_append

/-- Number of the copies of an event that are in flight. -/
def copies (s : Transit) (i : EventId) : Nat := s.inFlight.countP (·.id == i)

/-- Whether a copy of an event lands. -/
def lands (s : Transit) (i : EventId) : Move → Bool
  | .land _ n => s.inFlight[n]?.any (·.id == i)
  | _ => false

/-- Number of the copies of an event that land in a run. -/
def landings (i : EventId) : Transit → List Move → Nat
  | _, [] => 0
  | s, x :: xs => (s.lands i x).toNat + landings i (s.step x) xs

variable {s : Transit} {es : List Event} {i : EventId} {e : Event} {x : Move}
  {side side' : Side} {f : Archive → Archive}

theorem tier_change (s : Transit) (f : Archive → Archive) (side side' : Side) :
    (s.change f side).tier side' = if side' = side then f (s.tier side') else s.tier side' := by
  cases side <;> cases side' <;> rfl

theorem inFlight_change (s : Transit) (f : Archive → Archive) (side : Side) :
    (s.change f side).inFlight = s.inFlight := by
  cases side <;> rfl

/-- **What lands is saved in the local tier**, and no longer in flight. -/
theorem land_cases (s : Transit) (now : Int64) (n : Nat) :
    (s.inFlight[n]? = none ∧ s.step (.land now n) = s) ∨
    ∃ e, s.inFlight[n]? = some e ∧ s.step (.land now n) =
      { s.change (fun a => (a.save now e).2) .primary with inFlight := s.inFlight.eraseIdx n } := by
  rw [step]
  split
  · rename_i hnone
    exact .inl ⟨hnone, rfl⟩
  · rename_i e hsome
    exact .inr ⟨e, hsome, rfl⟩

/-- **Both tiers answer**, and what is in flight is known. -/
structure Healthy (s : Transit) (es : List Event) : Prop where
  serves : ∀ side, (s.tier side).Serves es
  inFlight : ∀ e ∈ s.inFlight, e ∈ es

/-! ### What is read -/

section
variable (h : s.Healthy es) (hfits : ∀ e ∈ es, e.Sized)
include h hfits

theorem stored_of_found (he : s.found? i = some e) : e ∈ s.secondary.db.events.storedEvents := by
  rw [found?] at he
  split at he
  · rename_i e' hfound
    obtain rfl := Option.some.inj he
    exact (((h.serves .secondary).fetch_eq_found_iff hfits).mp hfound).1
  · cases he
  · cases he

theorem stored_of_polled {since till : Int64} {n : Nat} (he : s.polled? since till n = some e) :
    e ∈ s.secondary.db.events.storedEvents := by
  rw [polled?] at he
  split at he
  · rename_i feed hfeed
    obtain ⟨hit, hhit, hevent⟩ := Option.bind_eq_some_iff.mp he
    refine (h.serves .secondary).stored_of_feed hfits hfeed (List.mem_of_getElem? hhit) ?_
    cases hrecord : hit.record with
    | full e' =>
      rw [hrecord] at hevent
      exact congrArg Record.full (Option.some.inj hevent)
    | stub j time =>
      rw [hrecord] at hevent
      cases hevent
  · cases he

end

/-! ### Both tiers go on answering -/

namespace Healthy

/-- Two tiers that answer, when nothing has been read. -/
theorem start {primary secondary : Archive} (hprimary : primary.Serves es)
    (hsecondary : secondary.Serves es) : Healthy ⟨primary, secondary, []⟩ es where
  serves
    | .primary => hprimary
    | .secondary => hsecondary
  inFlight := nofun

theorem change (h : s.Healthy es) (hf : ∀ a, a.Serves es → (f a).Serves es) (side : Side) :
    (s.change f side).Healthy es := by
  refine ⟨fun side' => ?_, by rw [inFlight_change]; exact h.inFlight⟩
  rw [tier_change]
  split
  · exact hf _ (h.serves side')
  · exact h.serves side'

theorem read {found : Option Event} (h : s.Healthy es) (hfound : ∀ e, found = some e → e ∈ es) :
    (s.read found).Healthy es := by
  refine ⟨fun side => ?_, fun e he => ?_⟩
  · cases side with
    | primary => exact h.serves .primary
    | secondary => exact h.serves .secondary
  rcases List.mem_append.mp he with he | he
  · exact h.inFlight e he
  · exact hfound e (Option.mem_toList.mp he)

theorem delete (h : s.Healthy es) (hid : Identified es) (he : e ∈ es) (side : Side) :
    (s.step (.delete side e)).Healthy es := h.change (fun _ ha => ha.delete hid he) side

/-- **One move** leaves both tiers answering. -/
theorem step (h : s.Healthy es) (hid : Identified es) (hfits : ∀ e ∈ es, e.Sized)
    (hx : ∀ e, x.event? = some e → e ∈ es) : (s.step x).Healthy es := by
  have hstored : ∀ e ∈ s.secondary.db.events.storedEvents, e ∈ es := fun e he =>
    (h.serves .secondary).mem_of_stored hfits he
  cases x with
  | save side now e => exact h.change (fun a ha => ha.save hid (hx e rfl) now) side
  | delete side e => exact h.delete hid (hx e rfl) side
  | collect side => exact h.change (fun a ha => ha.collect hid) side
  | note side now hits => exact h.change (fun a ha => ha.noteAccesses hid now hits) side
  | lookup i => exact h.read fun e he => hstored e (stored_of_found h hfits he)
  | poll since till n => exact h.read fun e he => hstored e (stored_of_polled h hfits he)
  | land now n =>
    rcases s.land_cases now n with ⟨-, heq⟩ | ⟨e, hsome, heq⟩
    · rwa [heq]
    · rw [heq]
      have he : e ∈ es := h.inFlight e (List.mem_of_getElem? hsome)
      exact ⟨(h.change (fun a ha => ha.save hid he now) .primary).serves,
        fun e' he' => h.inFlight e' (List.mem_of_mem_eraseIdx he')⟩
  | drop n => exact ⟨h.serves, fun e he => h.inFlight e (List.mem_of_mem_eraseIdx he)⟩

/-- **A run of moves** leaves both tiers answering. -/
theorem run {xs : List Move} (h : s.Healthy es) (hid : Identified es) (hfits : ∀ e ∈ es, e.Sized)
    (hxs : ∀ e ∈ xs.filterMap (·.event?), e ∈ es) : (s.run xs).Healthy es := by
  induction xs generalizing s with
  | nil => exact h
  | cons x xs ih =>
    rw [List.forall_mem_filterMap, List.forall_mem_cons, ← List.forall_mem_filterMap] at hxs
    exact ih (h.step hid hfits hxs.1) hxs.2

end Healthy

/-! ### What a tier lacks -/

theorem lacks_change (h : s.Healthy es) (hlacks : (s.tier side').Lacks i)
    (hf : ∀ a, a.Serves es → a.Lacks i → (f a).Lacks i) (side : Side) :
    ((s.change f side).tier side').Lacks i := by
  rw [tier_change]
  split
  · exact hf _ (h.serves side') hlacks
  · exact hlacks

/-- The half of a deletion that is done to a tier. -/
theorem lacks_deleted (h : s.Healthy es) (hid : Identified es) (he : e ∈ es) (side : Side) :
    ((s.step (.delete side e)).tier side).Lacks e.id := by
  rw [step, tier_change, if_pos rfl]
  exact (h.serves side).lacks_deleted hid he

/-- **One move** does not bring an event back to a tier, unless a client saves the event or a copy
of it lands there. -/
theorem lacks_step (h : s.Healthy es) (hid : Identified es) (hx : ∀ e, x.event? = some e → e ∈ es)
    (hother : ∀ e, x.saves? = some e → e.id ≠ i) (side' : Side)
    (hlands : side' = .primary → s.lands i x = false) (hlacks : (s.tier side').Lacks i) :
    ((s.step x).tier side').Lacks i := by
  cases x with
  | save side now e =>
    exact lacks_change h hlacks
      (fun a ha hl => ha.lacks_save hid hl (hx e rfl) (hother e rfl) now) side
  | delete side e =>
    exact lacks_change h hlacks (fun a ha hl => ha.lacks_delete hid hl (hx e rfl)) side
  | collect side => exact lacks_change h hlacks (fun a ha hl => ha.lacks_collect hid hl) side
  | note side now hits =>
    exact lacks_change h hlacks (fun a ha hl => ha.lacks_noteAccesses hid hl now hits) side
  | lookup j => cases side' <;> exact hlacks
  | poll since till n => cases side' <;> exact hlacks
  | land now n =>
    rcases s.land_cases now n with ⟨-, heq⟩ | ⟨e, hsome, heq⟩
    · rwa [heq]
    · rw [heq]
      cases side' with
      | secondary => exact hlacks
      | primary =>
        have hne : e.id ≠ i := by
          have hlands := hlands rfl
          rw [lands, hsome, Option.any_some, beq_eq_false_iff_ne] at hlands
          exact hlands
        exact (h.serves .primary).lacks_save hid hlacks
          (h.inFlight e (List.mem_of_getElem? hsome)) hne now
  | drop n => cases side' <;> exact hlacks

/-- **A run of moves** does not bring an event back to a tier, unless a client saves the event or a
copy of it lands there. -/
theorem lacks_run {xs : List Move} (h : s.Healthy es) (hid : Identified es)
    (hfits : ∀ e ∈ es, e.Sized) (hxs : ∀ e ∈ xs.filterMap (·.event?), e ∈ es)
    (hother : ∀ e ∈ xs.filterMap (·.saves?), e.id ≠ i) (side : Side)
    (hlands : side = .primary → landings i s xs = 0) (hlacks : (s.tier side).Lacks i) :
    ((s.run xs).tier side).Lacks i := by
  induction xs generalizing s with
  | nil => exact hlacks
  | cons x xs ih =>
    rw [List.forall_mem_filterMap, List.forall_mem_cons, ← List.forall_mem_filterMap] at hxs hother
    have hlands' : side = .primary → s.lands i x = false ∧ landings i (s.step x) xs = 0 := by
      intro hside
      obtain ⟨hfirst, hrest⟩ := Nat.add_eq_zero_iff.mp (hlands hside)
      exact ⟨Bool.toNat_eq_zero.mp hfirst, hrest⟩
    exact ih (h.step hid hfits hxs.1) hxs.2 hother.2 (fun hside => (hlands' hside).2)
      (lacks_step h hid hxs.1 hother.1 side (fun hside => (hlands' hside).1) hlacks)

/-- **From where an event was deleted first, it is gone when it has been deleted from both tiers**,
unless that was the local one and a copy has landed in between. -/
theorem lacks_first {between : List Move} (h : s.Healthy es) (hid : Identified es)
    (hfits : ∀ e ∈ es, e.Sized) (he : e ∈ es)
    (hbetween : ∀ e ∈ between.filterMap (·.event?), e ∈ es)
    (hother : ∀ a ∈ between.filterMap (·.saves?), a.id ≠ e.id) (side : Side)
    (hlands : side = .primary → landings e.id (s.step (.delete side e)) between = 0) :
    ((((s.step (.delete side e)).run between).step (.delete side.other e)).tier side).Lacks
      e.id := by
  have hbegun := h.delete hid he side
  have hkept := lacks_run hbegun hid hfits hbetween hother side hlands
    (lacks_deleted h hid he side)
  exact lacks_change (hbegun.run hid hfits hbetween) hkept
    (fun a ha hl => ha.lacks_delete hid hl he) side.other

/-! ### Copies in flight -/

theorem copies_change (s : Transit) (f : Archive → Archive) (side : Side) (i : EventId) :
    (s.change f side).copies i = s.copies i := by
  rw [copies, inFlight_change, copies]

/-- What is read of another event is no copy. -/
theorem copies_read {found : Option Event} (hfound : ∀ e, found = some e → e.id ≠ i) :
    (s.read found).copies i = s.copies i := by
  have hnone : found.toList.countP (·.id == i) = 0 := List.countP_eq_zero.mpr fun e he => by
    rw [beq_iff_eq]
    exact hfound e (Option.mem_toList.mp he)
  rw [copies, read, List.countP_append, hnone, Nat.add_zero, copies]

/-- **One move** makes no copy of an event that the secondary tier lacks, and what lands was in
flight. -/
theorem copies_step (h : s.Healthy es) (hfits : ∀ e ∈ es, e.Sized) (hlacks : s.secondary.Lacks i)
    (x : Move) : (s.lands i x).toNat + (s.step x).copies i ≤ s.copies i := by
  have hchange : ∀ f side, (false).toNat + (s.change f side).copies i ≤ s.copies i := by
    intro f side
    rw [copies_change]
    exact (Nat.zero_add _).le
  have hread : ∀ found : Option Event,
      (∀ e, found = some e → e ∈ s.secondary.db.events.storedEvents) →
        (false).toNat + (s.read found).copies i ≤ s.copies i := by
    intro found hfound
    rw [copies_read fun e he =>
      (h.serves .secondary).id_ne_of_stored hfits hlacks (hfound e he)]
    exact (Nat.zero_add _).le
  cases x with
  | save side now e => exact hchange _ side
  | delete side e => exact hchange _ side
  | collect side => exact hchange _ side
  | note side now hits => exact hchange _ side
  | lookup j => exact hread _ fun e he => stored_of_found h hfits he
  | poll since till n => exact hread _ fun e he => stored_of_polled h hfits he
  | land now n =>
    rcases s.land_cases now n with ⟨hnone, heq⟩ | ⟨e, hsome, heq⟩
    · rw [heq, lands, hnone]
      exact (Nat.zero_add _).le
    · obtain ⟨hn, rfl⟩ := List.getElem?_eq_some_iff.mp hsome
      have hperm := (List.getElem_cons_eraseIdx_perm hn).countP_eq (·.id == i)
      rw [List.countP_cons] at hperm
      rw [heq, lands, hsome, Option.any_some, copies, copies, ← hperm, Nat.add_comm]
      refine (congrArg _ ?_).le
      cases s.inFlight[n].id == i <;> rfl
  | drop n => exact (Nat.zero_add _).trans_le ((List.eraseIdx_sublist ..).countP_le)

/-- **An event stays gone**, but for the copies of it that are in flight: the secondary tier lacks
it, each copy lands once, and if none lands the local tier goes on lacking it. -/
structure Gone (i : EventId) (s : Transit) (xs : List Move) : Prop where
  secondary : (s.run xs).secondary.Lacks i
  copies : landings i s xs + (s.run xs).copies i ≤ s.copies i
  primary : landings i s xs = 0 → s.primary.Lacks i → (s.run xs).primary.Lacks i

/-- **An event that the secondary tier lacks stays gone**, as long as no client saves it. -/
theorem gone_run {xs : List Move} (h : s.Healthy es) (hid : Identified es)
    (hfits : ∀ e ∈ es, e.Sized) (hxs : ∀ e ∈ xs.filterMap (·.event?), e ∈ es)
    (hother : ∀ e ∈ xs.filterMap (·.saves?), e.id ≠ i) (hlacks : s.secondary.Lacks i) :
    s.Gone i xs where
  secondary := lacks_run h hid hfits hxs hother .secondary nofun hlacks
  primary hlands := lacks_run h hid hfits hxs hother .primary fun _ => hlands
  copies := by
    induction xs generalizing s with
    | nil => exact (Nat.zero_add _).le
    | cons x xs ih =>
      rw [List.forall_mem_filterMap, List.forall_mem_cons, ← List.forall_mem_filterMap]
        at hxs hother
      have hrest := ih (h.step hid hfits hxs.1) hxs.2 hother.2
        (lacks_step h hid hxs.1 hother.1 .secondary nofun hlacks)
      calc landings i s (x :: xs) + (s.run (x :: xs)).copies i
        _ = (s.lands i x).toNat + (landings i (s.step x) xs + ((s.step x).run xs).copies i) :=
          Nat.add_assoc ..
        _ ≤ (s.lands i x).toNat + (s.step x).copies i := Nat.add_le_add_left hrest _
        _ ≤ s.copies i := copies_step h hfits hlacks x

/-- **A deletion is undone only by copies that were in flight when it was completed.**  Two
reachable tiers go through any moves, an event is deleted from both, from one after the other, and
no client saves it from then on.  Then it is in none of the tiers, unless the local one was the first
and a copy has landed since.  However long the two go on, the event stays gone but for the copies
that were in flight: each of them lands once, no others do, and only one that lands brings the event
back to the local tier.  If there were none, it stays out of both. -/
theorem delete_completed {primary secondary : Archive} {es es' : List Event}
    {before between after later : List Move} {side : Side} {e : Event}
    (hprimary : Archive.Reached es primary) (hsecondary : Archive.Reached es' secondary)
    (hopen : primary.isClosed = false) (hopen' : secondary.isClosed = false)
    (hid : Identified (es ++ es' ++ (before ++ .delete side e ::
      (between ++ .delete side.other e :: (after ++ later))).filterMap (·.event?)))
    (hfits : ∀ a ∈ es ++ es' ++ (before ++ .delete side e ::
      (between ++ .delete side.other e :: (after ++ later))).filterMap (·.event?), a.Sized)
    (hother : ∀ a ∈ (between ++ after ++ later).filterMap (·.saves?), a.id ≠ e.id) :
    let begun := (run ⟨primary, secondary, []⟩ before).step (.delete side e)
    let done := (begun.run between).step (.delete side.other e)
    done.secondary.Lacks e.id ∧
      (side = .secondary ∨ landings e.id begun between = 0 → done.primary.Lacks e.id) ∧
      (done.run after).Gone e.id later ∧
      (done.copies e.id = 0 → done.primary.Lacks e.id →
        (done.run after).primary.Lacks e.id ∧ (done.run after).secondary.Lacks e.id) := by
  intro begun done
  let all := es ++ es' ++ (before ++ .delete side e ::
    (between ++ .delete side.other e :: (after ++ later))).filterMap (·.event?)
  have hgiven : ∀ a ∈ (before ++ .delete side e :: (between ++ .delete side.other e ::
      (after ++ later))).filterMap (·.event?), a ∈ all := fun a ha => List.mem_append_right _ ha
  simp only [List.filterMap_append, List.filterMap_cons, Move.event?, List.forall_mem_append,
    List.forall_mem_cons] at hgiven hother
  obtain ⟨hbefore, he, hbetween, -, hafter, hlater⟩ := hgiven
  obtain ⟨⟨hbetween', hafter'⟩, hlater'⟩ := hother
  have hstart : (run ⟨primary, secondary, []⟩ before).Healthy all := by
    refine (Healthy.start ?_ ?_).run hid hfits hbefore
    · exact hprimary.serves hopen
        (fun a ha => List.mem_append_left _ (List.mem_append_left _ ha)) hid
    · exact hsecondary.serves hopen'
        (fun a ha => List.mem_append_left _ (List.mem_append_right _ ha)) hid
  have hrun : (begun.run between).Healthy all :=
    (hstart.delete hid he side).run hid hfits hbetween
  have hdone : done.Healthy all := hrun.delete hid he side.other
  have hfirst := lacks_first hstart hid hfits he hbetween hbetween' side
  have hlast : (done.tier side.other).Lacks e.id := lacks_deleted hrun hid he side.other
  have hsecondary : done.secondary.Lacks e.id := by
    cases side with
    | primary => exact hlast
    | secondary => exact hfirst nofun
  have hgone : done.Gone e.id after := gone_run hdone hid hfits hafter hafter' hsecondary
  refine ⟨hsecondary, fun hside => ?_, ?_, fun hnone hlacks => ⟨?_, hgone.secondary⟩⟩
  · cases side with
    | primary => exact hfirst fun _ => hside.resolve_left nofun
    | secondary => exact hlast
  · exact gone_run (hdone.run hid hfits hafter) hid hfits hlater hlater' hgone.secondary
  · have hcopies := hgone.copies
    exact hgone.primary (by omega) hlacks

/-- A copy lands before the deletion begins, and one that is read while it goes on is given up.
What is read later on is not the event. -/
theorem delete_completed_dropped :
    let e : Event := .uniform 1 7 100 1 []
    let before : List Move := [.save .primary 5 e, .save .secondary 5 e, .collect .primary,
      .lookup e.id, .land 6 0]
    let between : List Move := [.poll 0 200 0, .drop 0]
    let after : List Move := [.save .secondary 7 (.uniform 2 7 100 1 []), .lookup e.id,
      .poll 0 200 0, .land 8 0]
    let begun := (run ⟨.demoting, .fresh, []⟩ before).step (.delete .primary e)
    let done := (begun.run between).step (.delete .secondary e)
    (run ⟨.demoting, .fresh, []⟩ before).primary.db.events.storedEvents = [e] ∧
      done.copies e.id = 0 ∧ landings e.id done after = 0 ∧
      (done.run after).primary.Lacks e.id ∧ (done.run after).secondary.Lacks e.id := by
  intro e before between after begun done
  obtain ⟨-, hlacks, -, hgone⟩ := @delete_completed _ _ [] [] before between after [] .primary e
    .demoting .fresh rfl rfl (by decide +kernel) (by decide +kernel) (by decide +kernel)
  have hnone : done.copies e.id = 0 := by decide +kernel
  have hprimary : done.primary.Lacks e.id := hlacks (.inr (by decide +kernel))
  exact ⟨by decide +kernel, hnone, by decide +kernel, hgone hnone hprimary⟩

/-- An event is read, by a lookup or by a poll, then deleted from both tiers, and what was read is
saved: the event is back. -/
theorem delete_undone :
    let e : Event := .uniform 1 7 100 1 []
    let saved := run ⟨.demoting, .fresh, []⟩
      [.save .primary 5 e, .save .secondary 5 e, .collect .primary]
    let looked := (saved.step (.lookup e.id)).run [.delete .primary e, .delete .secondary e]
    let polled := (saved.step (.poll 0 200 0)).run [.delete .primary e, .delete .secondary e]
    (saved.primary.delete e).1.toOption = some .deleted ∧
      (saved.secondary.delete e).1.toOption = some .deleted ∧
      looked.primary.Lacks e.id ∧ looked.secondary.Lacks e.id ∧
      (looked.step (.land 9 0)).primary.db.events.storedEvents = [e] ∧
      polled.primary.Lacks e.id ∧ polled.secondary.Lacks e.id ∧
      (polled.step (.land 9 0)).primary.db.events.storedEvents = [e] := by
  decide +kernel

/-! ### Runs of moves -/

/-- Lookups that find events put them in flight. -/
theorem run_lookups {brought : List Event} (h : ∀ e ∈ brought, s.found? e.id = some e) :
    s.run (brought.map (.lookup ·.id)) = { s with inFlight := s.inFlight ++ brought } := by
  induction brought generalizing s with
  | nil =>
    rw [List.append_nil]
    rfl
  | cons e brought ih =>
    obtain ⟨hfirst, hrest⟩ := List.forall_mem_cons.mp h
    have hstep : s.step (.lookup e.id) = s.read (some e) := by rw [step, hfirst]
    have htail := ih (s := s.read (some e)) hrest
    rw [← hstep] at htail
    refine htail.trans ?_
    rw [hstep, read, Option.toList_some, List.append_assoc]
    rfl

/-- What is read in polls can be saved at once. -/
theorem exists_run_polls {since till : Int64} {saved : List Event} (now : Int64)
    (h : ∀ e ∈ saved, ∃ n, s.polled? since till n = some e) :
    ∃ xs, s.run xs = { s with primary := s.primary.saveAll now saved } ∧
      ∀ m ∈ xs, m.event? = none := by
  induction saved generalizing s with
  | nil => exact ⟨[], rfl, nofun⟩
  | cons e saved ih =>
    obtain ⟨⟨n, hpoll⟩, hrest⟩ := List.forall_mem_cons.mp h
    obtain ⟨xs, hrun, hxs⟩ := ih (s := { s with primary := (s.primary.save now e).2 }) hrest
    refine ⟨.poll since till n :: .land now s.inFlight.length :: xs, ?_, ?_⟩
    · have hland : (s.read (some e)).step (.land now s.inFlight.length) =
          { s with primary := (s.primary.save now e).2 } := by
        have hlast : (s.inFlight ++ [e]).eraseIdx s.inFlight.length = s.inFlight := by
          rw [List.eraseIdx_append_of_length_le (Nat.le_refl _), Nat.sub_self]
          exact List.append_nil _
        rw [step, read, Option.toList_some]
        dsimp only
        rw [List.getElem?_concat_length, hlast]
      show ((s.read (s.polled? since till n)).step (.land now s.inFlight.length)).run xs = _
      rw [hpoll, hland, hrun]
      rfl
    · exact List.forall_mem_cons.mpr ⟨rfl, List.forall_mem_cons.mpr ⟨rfl, hxs⟩⟩

end Transit

/-- A move that is part of an action: what a client saves or deletes in it is what the action saves
or deletes. -/
def Move.PartOf (x : Action) : Move → Prop
  | .save _ now e => x = .save now e
  | .delete _ e => x = .delete e
  | _ => True

theorem Move.partOf_of_event?_eq_none {m : Move} (h : m.event? = none) (x : Action) :
    m.PartOf x := by
  cases m with
  | save side now e => cases h
  | delete side e => cases h
  | _ => trivial

namespace Ongoing
variable {o : Ongoing} {es : List Event} {x : Action} {i : EventId}

/-- The tiers of a tiered archive, where what is outstanding is in flight. -/
def transit (o : Ongoing) : Transit := ⟨o.archive.primary, o.archive.secondary, o.outstanding⟩

/-- A tiered archive that answers goes on answering move by move. -/
theorem Healthy.transit (h : o.Healthy es) : o.transit.Healthy es where
  serves
    | .primary => h.primary
    | .secondary => h.secondary
  inFlight := h.outstanding

/-- **Every action is a run of moves.**  A save and a deletion are done to one tier after the other,
a query notes accesses and looks up, and a poll lands what it reads. -/
theorem step_moves (h : o.Healthy es) (hfits : ∀ e ∈ es, e.Sized) (x : Action) :
    ∃ xs, (o.step x).transit = o.transit.run xs ∧ ∀ m ∈ xs, m.PartOf x := by
  cases x with
  | save now e =>
    refine ⟨[.save .primary now e, .save .secondary now e], ?_, by simp [Move.PartOf]⟩
    rw [step, TieredArchive.save_undisturbed h.link]
    rfl
  | delete e =>
    refine ⟨[.delete .primary e, .delete .secondary e], ?_, by simp [Move.PartOf]⟩
    rw [step, TieredArchive.delete_undisturbed h.link]
    rfl
  | collect => exact ⟨[.collect .primary], rfl, by simp [Move.PartOf]⟩
  | ask order now f read cancelled =>
    obtain ⟨hits, hits', heq, hbrought⟩ := o.archive.ask_cases order now f read cancelled
    let brought := distinctBy Event.id (o.outstanding.map Event.id)
      (o.archive.ask order now f read cancelled).2
    have hfound : ∀ e ∈ brought, o.transit.found? e.id = some e := by
      intro e he
      obtain ⟨i, hfound⟩ := hbrought e ((distinctBy_sublist Event.id _ _).subset he)
      rw [h.link] at hfound
      obtain ⟨-, rfl⟩ := h.secondary.known_of_found hfits hfound
      rw [Transit.found?, transit, hfound]
    refine ⟨brought.map (.lookup ·.id) ++ [.note .primary now hits, .note .secondary now hits'],
      ?_, fun m hm => ?_⟩
    · rw [Transit.run_append, Transit.run_lookups hfound, step, heq]
      rfl
    · rcases List.mem_append.mp hm with hm | hm
      · obtain ⟨e, -, rfl⟩ := List.mem_map.mp hm
        trivial
      · rw [List.mem_pair] at hm
        obtain rfl | rfl := hm <;> trivial
  | revive now n =>
    refine ⟨[.land now n], ?_, by simp [Move.PartOf]⟩
    show (o.revive now n).transit = o.transit.step (.land now n)
    simp only [revive, Transit.step, transit]
    cases o.outstanding[n]? <;> rfl
  | poll now p =>
    obtain ⟨saved, hits, hprimary, hsecondary, -, hsaved⟩ := TieredArchive.poll_cases h.link now p
    have hpolled : ∀ e ∈ saved, ∃ n, o.transit.polled? p.since now n = some e := by
      intro e he
      obtain ⟨feed, hfeed, hit, hhit, hrecord⟩ := hsaved e he
      obtain ⟨n, hn⟩ := List.mem_iff_getElem?.mp hhit
      refine ⟨n, ?_⟩
      rw [Transit.polled?, transit, hfeed]
      dsimp only
      rw [hn, Option.bind_some, hrecord]
      rfl
    obtain ⟨xs, hrun, hxs⟩ := Transit.exists_run_polls now hpolled
    refine ⟨xs ++ [.note .secondary now hits], ?_, fun m hm => ?_⟩
    · rw [Transit.run_append, hrun, step, transit, hprimary, hsecondary]
      rfl
    · rcases List.mem_append.mp hm with hm | hm
      · exact Move.partOf_of_event?_eq_none (hxs m hm) _
      · rw [List.mem_singleton] at hm
        rw [hm]
        trivial

/-- **A run of actions is a run of moves**, of which every one is part of an action. -/
theorem run_moves {xs : List Action} (h : o.Healthy es) (hid : Identified es)
    (hfits : ∀ e ∈ es, e.Sized) (hxs : ∀ e ∈ xs.filterMap Action.event?, e ∈ es) :
    ∃ ms, (o.run xs).transit = o.transit.run ms ∧ ∀ m ∈ ms, ∃ x ∈ xs, m.PartOf x := by
  induction xs generalizing o with
  | nil => exact ⟨[], rfl, nofun⟩
  | cons x xs ih =>
    rw [List.forall_mem_filterMap, List.forall_mem_cons, ← List.forall_mem_filterMap] at hxs
    obtain ⟨ms, hfirst, hms⟩ := step_moves h hfits x
    obtain ⟨ms', hrest, hms'⟩ := ih (h.step hid hfits hxs.1) hxs.2
    refine ⟨ms ++ ms', ?_, fun m hm => ?_⟩
    · rw [Transit.run_append, ← hfirst, ← hrest]
      rfl
    · rcases List.mem_append.mp hm with hm | hm
      · exact ⟨x, List.mem_cons_self, hms m hm⟩
      · obtain ⟨x', hx', hpart⟩ := hms' m hm
        exact ⟨x', List.mem_cons_of_mem _ hx', hpart⟩

/-- **A tiered archive that lacks an event goes on lacking it**, whatever happens, if the event is
not outstanding and is not saved again. -/
theorem lacks_run {xs : List Action} (h : o.Healthy es) (hid : Identified es)
    (hfits : ∀ e ∈ es, e.Sized) (hxs : ∀ e ∈ xs.filterMap Action.event?, e ∈ es)
    (hother : ∀ now e, .save now e ∈ xs → e.id ≠ i) (hnone : ∀ e ∈ o.outstanding, e.id ≠ i)
    (hprimary : o.archive.primary.Lacks i) (hsecondary : o.archive.secondary.Lacks i) :
    (o.run xs).archive.primary.Lacks i ∧ (o.run xs).archive.secondary.Lacks i := by
  obtain ⟨ms, hrun, hms⟩ := run_moves h hid hfits hxs
  have hgiven : ∀ e ∈ ms.filterMap (·.event?), e ∈ es := by
    intro e he
    obtain ⟨m, hm, hevent⟩ := List.mem_filterMap.mp he
    obtain ⟨x, hx, hpart⟩ := hms m hm
    refine hxs e (List.mem_filterMap.mpr ⟨x, hx, ?_⟩)
    cases m with
    | save side now a => rwa [show x = .save now a from hpart]
    | delete side a => rwa [show x = .delete a from hpart]
    | _ => cases hevent
  have hsaves : ∀ e ∈ ms.filterMap (·.saves?), e.id ≠ i := by
    intro e he
    obtain ⟨m, hm, hsaved⟩ := List.mem_filterMap.mp he
    obtain ⟨x, hx, hpart⟩ := hms m hm
    cases m with
    | save side now a =>
      obtain rfl := Option.some.inj hsaved
      obtain rfl : x = .save now a := hpart
      exact hother now a hx
    | _ => cases hsaved
  have hgone := Transit.gone_run h.transit hid hfits hgiven hsaves hsecondary
  have hcopies : o.transit.copies i = 0 := List.countP_eq_zero.mpr fun e he => by
    rw [beq_iff_eq]
    exact hnone e he
  have hle := hgone.copies
  have hprimary' := hgone.primary (by omega) hprimary
  have hsecondary' := hgone.secondary
  rw [← hrun] at hprimary' hsecondary'
  exact ⟨hprimary', hsecondary'⟩

end Ongoing
end EventArchive
