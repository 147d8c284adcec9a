/-!
# Errors of a relay

What the parts of a relay report when an event could not be passed on or fetched.
-/
namespace EventArchive

/-- Why a part of a relay failed. -/
inductive RelayError where
  | sink (detail : String)
  | source (detail : String)
  /-- Several parts failed, in the order in which they ran. -/
  | several (causes : List RelayError)

namespace RelayError

/-- The text of an error. -/
def message : RelayError → String
  | .sink detail => "Sink failed: " ++ detail
  | .source detail => "Source failed: " ++ detail
  | .several causes => toString causes.length ++ " sink(s) failed"

/-- The result of parts that all ran: a single error stands for itself. -/
def ofCauses : List RelayError → Except RelayError Unit
  | [] => .ok ()
  | [e] => .error e
  | causes => .error (.several causes)

end RelayError
end EventArchive
