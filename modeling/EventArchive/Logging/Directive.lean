import EventArchive.Data.Decimal
import EventArchive.Data.Split

/-!
# Filter directives

A filter is written as directives with commas between them. `target=level` sets the level of every
target that begins so, a bare level sets that of all targets, and a bare target shows everything of
it. For a line the directive with the longest target counts; without one the line is not shown.
-/
namespace EventArchive

/-- How much is shown. A line has one of the levels but `off`. -/
inductive Level where
  | off
  | error
  | warn
  | info
  | debug
  | trace
  deriving DecidableEq, Repr

namespace Level

/-- The levels in increasing verbosity; their positions are their numbers. -/
def all : List Level := [.off, .error, .warn, .info, .debug, .trace]

/-- The number of a level. -/
def rank : Level → Nat
  | .off => 0
  | .error => 1
  | .warn => 2
  | .info => 3
  | .debug => 4
  | .trace => 5

/-- The name of a level. -/
def name : Level → String
  | .off => "off"
  | .error => "error"
  | .warn => "warn"
  | .info => "info"
  | .debug => "debug"
  | .trace => "trace"

/-- The level of a name, in either case, or of a number. -/
def ofText? (cs : List Char) : Option Level :=
  match Decimal.readBounded 5 cs with
  | some n => all[n]?
  | none => all.find? fun l => cs.map Char.toLower == l.name.toList

end Level

/-- The level of the targets that begin with a text, or of all of them. -/
structure Directive where
  target : Option String
  level : Level
  deriving DecidableEq, Repr

namespace Directive

/-- Whether a directive may begin with a character. -/
def isStart (c : Char) : Bool := c.isAlphanum || c = '-' || c = ':' || c = '_' || 128 ≤ c.toNat

/-- A text without the blanks around it. -/
def trim (cs : List Char) : List Char :=
  ((cs.dropWhile Char.isWhitespace).reverse.dropWhile Char.isWhitespace).reverse

/-- A directive without an equals sign: a level, or a target of which everything is shown. -/
def ofWord (cs : List Char) : Directive :=
  match Level.ofText? cs with
  | some level => ⟨none, level⟩
  | none => ⟨some (String.ofList cs), .trace⟩

/-- The directive that a text writes. Its first character and the place of its equals sign are those
of the text without the blanks around it. The blanks are not removed, though: the text is cut at
that place as it is, so blanks before a directive spoil it. -/
def ofText? (cs : List Char) : Option Directive :=
  let shown := trim cs
  let place := (shown.takeWhile (· != '=')).length
  if ¬ shown.head?.any isStart then none
  else if shown.length ≤ place then some (ofWord cs)
  else
    let target := some (String.ofList (cs.take place))
    let level := cs.drop (place + 1)
    if level.isEmpty then some ⟨target, .trace⟩ else (Level.ofText? level).map (⟨target, ·⟩)

/-- Whether a directive speaks of a target. -/
def covers (d : Directive) (target : String) : Bool :=
  d.target.all fun t => t.toList.isPrefixOf target.toList

/-- Directives that speak of longer targets have greater weight. -/
def weight (d : Directive) : Nat := (d.target.map fun t => t.toList.length + 1).getD 0

end Directive

/-- Directives in the order in which they were given. -/
structure LogFilter where
  directives : List Directive
  deriving DecidableEq, Repr

namespace LogFilter

/-- The directives of a text that are not empty. -/
def parts (text : String) : List (List Char) :=
  (splitAt ',' text.toList).filter (!·.isEmpty)

/-- The filter that a text writes; none if one of its directives is invalid. A text without
directives shows nothing. -/
def ofText? (text : String) : Option LogFilter :=
  ((parts text).mapM Directive.ofText?).map LogFilter.mk

/-- The filter of those directives of a text that are valid. If there are none, errors are
shown. -/
def ofTextLossy (text : String) : LogFilter :=
  match (parts text).filterMap Directive.ofText? with
  | [] => ⟨[⟨none, .error⟩]⟩
  | directives => ⟨directives⟩

/-- The directive that counts for a target: the one with the greatest weight, and of several the
last one. -/
def directiveFor? (f : LogFilter) (target : String) : Option Directive :=
  (f.directives.filter (·.covers target)).foldl
    (fun best d => if best.any (d.weight < ·.weight) then best else some d) none

/-- Whether a line of a target and a level is shown. -/
def shows (f : LogFilter) (target : String) (level : Level) : Bool :=
  (f.directiveFor? target).any fun d => level.rank ≤ d.level.rank

end LogFilter
end EventArchive
