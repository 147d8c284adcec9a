import EventArchive.Session.Request
import EventArchive.Store.Edit

/-!
# Sessions

A session has a clock and the databases of one archive, or of the two tiers of a tiered archive. It
opens them, passes requests on, lets time pass, and opens them anew after they have been closed or
after a crash. A database that cannot be opened leaves the session without an archive until the next
attempt.
-/
namespace EventArchive

/-- What is open in a session. -/
inductive Opened where
  | nothing
  | single (archive : Archive)
  | tiered (archive : TieredArchive)

/-- A clock, databases, and what is open of them. -/
structure Session where
  clock : Int64
  config : Config
  /-- The configuration of the secondary tier, if there is one. -/
  secondaryConfig : Option Config
  link : Link
  /-- The database of the archive, or of the local tier, as it was opened. -/
  db : Database
  /-- The database of the secondary tier as it was opened. -/
  secondaryDb : Database
  opened : Opened

/-- What a command goes to. -/
inductive Target where
  | whole
  | primary
  | secondary
  deriving DecidableEq, Repr

/-- What a session can be told to do. -/
inductive Command where
  | request (target : Target) (request : Request)
  | setClock (now : Int64)
  /-- Let time pass second by second. -/
  | advance (seconds : Nat)
  /-- Disturb the link to the secondary tier. -/
  | disturb (link : Link)
  /-- Show the tables of a database. -/
  | dump (target : Target)
  /-- Close everything and open it again. -/
  | reopen
  /-- Open everything again without having closed it. -/
  | crash
  /-- Close everything, edit a database, and open everything again. -/
  | edit (target : Target) (edits : List Edit)
  /-- Receive the events that polling has brought. -/
  | receive

/-- What a command leads to. -/
inductive Effect where
  | done
  | answered (result : Except ArchiveError Answer)
  | opened (result : Except ArchiveError Unit)
  | dumped (result : Except ArchiveError Database)
  | received (events : Subscription)
  /-- No archive is open. -/
  | notOpen

namespace Session

/-- The databases as they are now. -/
def current (s : Session) : Database × Database :=
  match s.opened with
  | .nothing => (s.db, s.secondaryDb)
  | .single a => (a.db, s.secondaryDb)
  | .tiered t => (t.primary.db, t.secondary.db)

/-- The databases after everything has been closed. -/
def closed (s : Session) : Database × Database :=
  match s.opened with
  | .nothing => (s.db, s.secondaryDb)
  | .single a => (a.close.db, s.secondaryDb)
  | .tiered t => (t.primary.close.db, t.secondary.close.db)

/-- Open the databases of a session. -/
def openAll (s : Session) (db secondaryDb : Database) : Except ArchiveError Opened := do
  let primary ← Archive.start s.config db
  match s.secondaryConfig with
  | none => return .single primary
  | some config =>
    return .tiered (.join primary (← Archive.start config secondaryDb) s.link)

/-- Go on with other databases. -/
def resume (s : Session) (dbs : Database × Database) : Except ArchiveError Unit × Session :=
  match s.openAll dbs.1 dbs.2 with
  | .ok opened => (.ok (), { s with db := dbs.1, secondaryDb := dbs.2, opened })
  | .error e => (.error e, { s with db := dbs.1, secondaryDb := dbs.2, opened := .nothing })

/-- Begin a session with new databases. -/
def start (clock : Int64) (config : Config) (secondaryConfig : Option Config) :
    Except ArchiveError Session :=
  let s : Session :=
    ⟨clock, config, secondaryConfig, .undisturbed, .empty, .empty, .nothing⟩
  match s.resume (.empty, .empty) with
  | (.ok (), s) => .ok s
  | (.error e, _) => .error e

/-- Let a second pass. -/
def tick (s : Session) : Session :=
  let clock := s.clock + 1
  match s.opened with
  | .nothing => { s with clock }
  | .single a => { s with clock, opened := .single a.tick }
  | .tiered t => { s with clock, opened := .tiered (t.tick clock) }

/-- Let seconds pass. -/
def advance (s : Session) : (seconds : Nat) → Session
  | 0 => s
  | n + 1 => s.tick.advance n

/-- Pass a request on. -/
def answer (s : Session) (target : Target) (r : Request) : Effect × Session :=
  match s.opened with
  | .nothing => (.notOpen, s)
  | .single a =>
    let (result, a) := a.answer s.clock r
    (.answered result, { s with opened := .single a })
  | .tiered t =>
    match target with
    | .whole =>
      let (result, t) := t.answer TierMerge.firstBegun s.clock r
      (.answered result, { s with opened := .tiered t })
    | .primary =>
      let (result, primary) := t.primary.answer s.clock r
      (.answered result, { s with opened := .tiered { t with primary } })
    | .secondary =>
      let (result, secondary) := t.secondary.answer s.clock r
      (.answered result, { s with opened := .tiered { t with secondary } })

/-- Disturb the link. -/
def disturb (s : Session) (link : Link) : Session :=
  match s.opened with
  | .tiered t => { s with link, opened := .tiered { t with link } }
  | _ => { s with link }

/-- Receive the events that polling has brought. -/
def receive (s : Session) : Effect × Session :=
  match s.opened with
  | .nothing => (.notOpen, s)
  | .single _ => (.received .empty, s)
  | .tiered t =>
    let (received, t) := t.receive
    (.received received, { s with opened := .tiered t })

/-- Edit the database of a target. -/
def edited (dbs : Database × Database) (target : Target) (edits : List Edit) :
    Database × Database :=
  if target = .secondary then (dbs.1, dbs.2.editAll edits) else (dbs.1.editAll edits, dbs.2)

/-- Follow a command. -/
def step (s : Session) : Command → Effect × Session
  | .request target r => s.answer target r
  | .setClock now => (.done, { s with clock := now })
  | .advance seconds => (.done, s.advance seconds)
  | .disturb link => (.done, s.disturb link)
  | .dump target =>
    (.dumped (if target = .secondary then s.current.2 else s.current.1).prepare, s)
  | .reopen => (s.resume s.closed).map .opened id
  | .crash => (s.resume s.current).map .opened id
  | .edit target edits => (s.resume (edited s.closed target edits)).map .opened id
  | .receive => s.receive

end Session
end EventArchive
