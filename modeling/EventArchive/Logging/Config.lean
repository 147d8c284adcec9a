import EventArchive.Data.SortedMap
import EventArchive.Settings.Toml

/-!
# Configuration of logging

Which lines are logged, and where to. Every part of a program logs under the name of a target, and a
target may have a level of its own.
-/
namespace EventArchive

/-- How lines look on the console. -/
inductive ConsoleFormat where
  | json
  /-- Several lines of text for each event. -/
  | pretty
  /-- One line of text for each event. -/
  | compact
  deriving DecidableEq, Repr

/-- The formats by name. -/
def ConsoleFormat.named : List (String × ConsoleFormat) :=
  [("json", .json), ("pretty", .pretty), ("compact", .compact)]

/-- The name of a format. -/
def ConsoleFormat.name : ConsoleFormat → String
  | .json => "json"
  | .pretty => "pretty"
  | .compact => "compact"

/-- Output to the console. -/
structure ConsoleConfig where
  enabled : Bool
  format : ConsoleFormat
  /-- Whether text has colors. -/
  ansi : Bool
  /-- The level of the console, if it differs from the default level. -/
  level : Option String
  /-- Whether lines go through the output capture of a test run. -/
  captured : Bool
  deriving DecidableEq, Repr

/-- JSON lines without colors. -/
def ConsoleConfig.standard : ConsoleConfig := ⟨true, .json, false, none, false⟩

/-- When a new log file is begun. -/
inductive Rotation where
  | daily
  | hourly
  | never
  deriving DecidableEq, Repr

/-- The rotations by name. -/
def Rotation.named : List (String × Rotation) :=
  [("daily", .daily), ("hourly", .hourly), ("never", .never)]

/-- The name of a rotation. -/
def Rotation.name : Rotation → String
  | .daily => "daily"
  | .hourly => "hourly"
  | .never => "never"

/-- Output to files, always as JSON lines. -/
structure LogFileConfig where
  directory : String
  /-- What the names of the files begin with. -/
  stem : String
  rotation : Rotation
  deriving DecidableEq, Repr

/-- A new file for each day. -/
def LogFileConfig.standard : LogFileConfig := ⟨"./logs", "strata", .daily⟩

/-- What is logged, and where to. -/
structure LogConfig where
  /-- The level of every target without one of its own. -/
  defaultLevel : String
  console : ConsoleConfig
  file : Option LogFileConfig
  /-- The levels of targets. -/
  targets : SortedMap String String
  deriving DecidableEq

namespace LogConfig

/-! ### Usual configurations -/

/-- Everything from `info` on as JSON lines on the console. -/
def standard : LogConfig := ⟨"info", .standard, none, ∅⟩

/-- Set the level of a target. -/
def withTarget (c : LogConfig) (target level : String) : LogConfig :=
  { c with targets := c.targets.insert target level }

/-- Colored text from `debug` on, with little about accesses. -/
def development : LogConfig :=
  { standard with
    defaultLevel := "debug"
    console := { ConsoleConfig.standard with format := .pretty, ansi := true } }.withTarget
      "strata_storage::access" "info"

/-- Daily files in a directory, and no console. -/
def production (directory : String) : LogConfig :=
  { standard with
    console := { ConsoleConfig.standard with enabled := false }
    file := some { LogFileConfig.standard with directory } }

/-- Compact warnings through the output capture of a test run. -/
def testing : LogConfig :=
  { standard with
    defaultLevel := "warn"
    console := { ConsoleConfig.standard with format := .compact, captured := true } }

/-! ### Changing a configuration -/

/-- Set the default level. -/
def withLevel (c : LogConfig) (level : String) : LogConfig := { c with defaultLevel := level }

/-- Turn the console on or off. -/
def withConsole (c : LogConfig) (enabled : Bool) : LogConfig :=
  { c with console := { c.console with enabled } }

/-- Set the format of the console. -/
def withFormat (c : LogConfig) (format : ConsoleFormat) : LogConfig :=
  { c with console := { c.console with format } }

/-- Set the level of the console. -/
def withConsoleLevel (c : LogConfig) (level : String) : LogConfig :=
  { c with console := { c.console with level := some level } }

/-- Set the output to files. -/
def withFile (c : LogConfig) (file : LogFileConfig) : LogConfig := { c with file := some file }

/-! ### Directives -/

/-- A level followed by the levels of targets, with commas between them. -/
def directivesAt (c : LogConfig) (level : String) : String :=
  c.targets.entries.foldl (fun text t => text ++ "," ++ t.1 ++ "=" ++ t.2) level

/-- The directives for all output. -/
def directives (c : LogConfig) : String := c.directivesAt c.defaultLevel

/-- The directives for the console. -/
def consoleDirectives (c : LogConfig) : String :=
  c.directivesAt (c.console.level.getD c.defaultLevel)

end LogConfig

/-! ### Reading a configuration -/

/-- The console's part of a settings file. Captured output cannot be set there. -/
def ConsoleConfig.ofSetting? (s : Setting) : Option ConsoleConfig := do
  let d := standard
  let ms ← s.part? ["enabled", "format", "ansi", "level"]
  return {
    enabled := ← readMember ms "enabled" Setting.boolean? d.enabled
    format := ← readMember ms "format" (Setting.choice? ConsoleFormat.named) d.format
    ansi := ← readMember ms "ansi" Setting.boolean? d.ansi
    level := ← readMember ms "level" (fun s => s.text?.map some) d.level
    captured := d.captured }

/-- The files' part of a settings file. -/
def LogFileConfig.ofSetting? (s : Setting) : Option LogFileConfig := do
  let d := standard
  let ms ← s.part? ["directory", "prefix", "rotation"]
  return {
    directory := ← readMember ms "directory" Setting.text? d.directory
    stem := ← readMember ms "prefix" Setting.text? d.stem
    rotation := ← readMember ms "rotation" (Setting.choice? Rotation.named) d.rotation }

/-- The levels of targets in a settings file. -/
def readTargets? : Setting → Option (SortedMap String String)
  | .table ms => do
    return SortedMap.ofList (← ms.mapM fun m => m.2.text?.map fun level => (m.1, level))
  | _ => none

/-- The configuration in a table of settings. -/
def LogConfig.ofSetting? (s : Setting) : Option LogConfig := do
  let d := standard
  let ms ← s.part? ["default_level", "console", "file", "targets"]
  return {
    defaultLevel := ← readMember ms "default_level" Setting.text? d.defaultLevel
    console := ← readMember ms "console" ConsoleConfig.ofSetting? d.console
    file := ← readMember ms "file" (fun s => (LogFileConfig.ofSetting? s).map some) d.file
    targets := ← readMember ms "targets" readTargets? d.targets }

/-- The configuration that a text in TOML writes. -/
def LogConfig.ofToml? (text : String) : Option LogConfig :=
  (Toml.parse? text).bind ofSetting?

end EventArchive
