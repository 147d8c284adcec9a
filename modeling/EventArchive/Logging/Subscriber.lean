import EventArchive.Data.Calendar
import EventArchive.Logging.Config
import EventArchive.Logging.Directive

/-!
# The subscriber of a process

A process has at most one subscriber, which sends the lines that are logged to the console and to a
file. One filter decides for both, and the console has another one of its own. An environment
variable can take the place of the configured directives.
-/
namespace EventArchive

/-- A line that is logged. -/
structure LogLine where
  target : String
  level : Level
  deriving DecidableEq, Repr

/-- Where lines go. -/
structure Subscriber where
  /-- The filter of all output. -/
  filter : LogFilter
  console : ConsoleConfig
  consoleFilter : LogFilter
  file : Option LogFileConfig
  deriving DecidableEq, Repr

namespace Subscriber

/-- The subscriber of a configuration. The environment's directives count if all of them are
valid. -/
def ofConfig (c : LogConfig) (environment : Option String) : Subscriber where
  filter := (environment.bind LogFilter.ofText?).getD (LogFilter.ofTextLossy c.directives)
  console := c.console
  consoleFilter := LogFilter.ofTextLossy c.consoleDirectives
  file := c.file

/-- Install the subscriber of a configuration in a process that may have one already; none if it
has. -/
def install? (installed : Option Subscriber) (c : LogConfig) (environment : Option String) :
    Option Subscriber :=
  if installed.isSome then none else some (ofConfig c environment)

/-- Whether the process has to hold on to a guard that writes the rest of the files at its end. -/
def hasGuard (s : Subscriber) : Bool := s.file.isSome

/-- Whether a line is shown on the console. -/
def reachesConsole (s : Subscriber) (l : LogLine) : Bool :=
  s.console.enabled && s.filter.shows l.target l.level && s.consoleFilter.shows l.target l.level

/-- Whether a line is written to the file. -/
def reachesFile (s : Subscriber) (l : LogLine) : Bool :=
  s.file.isSome && s.filter.shows l.target l.level

/-- Whether the console writes JSON. -/
def writesJson (s : Subscriber) : Bool := s.console.format = .json

/-- Whether lines on the console are colored; JSON never is. -/
def isColored (s : Subscriber) : Bool := s.console.ansi && !s.writesJson

end Subscriber

/-- A name followed by a date, with a point between them. -/
def datedName (stem : String) (date : List Char) : String :=
  if stem.isEmpty then String.ofList date else stem ++ "." ++ String.ofList date

/-- The name of the file that is written at a time, in seconds since 1970. -/
def LogFileConfig.fileName (c : LogFileConfig) (now : Int) : String :=
  match c.rotation with
  | .never => c.stem ++ ".log"
  | .daily => datedName c.stem (Date.ofSeconds now).text
  | .hourly =>
    datedName c.stem ((Date.ofSeconds now).text ++ '-' :: Decimal.padded 2 (hourOfSeconds now))

end EventArchive
