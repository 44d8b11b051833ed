import ForestWalk.Error.Basic
/-!
The summary of an error that is handed to other programs, with the code of its kind.
-/

namespace ForestWalk

inductive ErrorKind where
  | illegalDirective
  | visitorFailed
  | tooDeep
deriving Repr, DecidableEq

/-- The word that stands for a kind of error in data. -/
def ErrorKind.code : ErrorKind → String
  | .illegalDirective => "invalid_edit_directive"
  | .visitorFailed => "visitor_failure"
  | .tooDeep => "depth_limit_exceeded"

/-- A summary of an error; what the error does not know is left out. -/
structure ErrorReport where
  kind : ErrorKind
  message : String
  hook : Option Hook
  index : Option Nat
  visitor : Option String
  tag : Option String
deriving Repr, DecidableEq

namespace WalkError

def kind : WalkError → ErrorKind
  | .illegalDirective .. => .illegalDirective
  | .visitorFailed .. => .visitorFailed
  | .tooDeep .. => .tooDeep

def report (error : WalkError) : ErrorReport where
  kind := error.kind
  message := error.text
  hook := error.hook
  index := error.site.map (·.index)
  visitor := error.site.map (·.visitor)
  tag := error.tag

end WalkError

end ForestWalk
