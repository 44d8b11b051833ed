import ForestWalk.Hook
import ForestWalk.Position
/-!
How a traversal fails. A failure of a visitor has a cause, and that cause may be the failure of
another traversal; `WalkError.causes` follows such a chain to its end.
-/

namespace ForestWalk

/-- The call that an error speaks of: the hook, the place of the visitor in the list of
registrations, and its name. -/
structure CallSite where
  hook : Hook
  index : Nat
  visitor : String
deriving Repr, DecidableEq

/-- A node that the slot it was meant for does not accept. -/
structure ShapeMismatch where
  tag : String
  slot : String
deriving Repr, DecidableEq

/-- Why a visitor failed, where `ε` is the type of the errors of traversals. -/
inductive Cause (ε : Type) where
  /-- The visitor says so in words of its own. -/
  | message (text : String)
  | shape (mismatch : ShapeMismatch)
  /-- The visitor is lent to somebody else. -/
  | unavailable
  /-- A traversal that the visitor started has failed. -/
  | traversal (error : ε)
deriving Repr, DecidableEq

inductive WalkError where
  /-- A directive was given where it is not legal. -/
  | illegalDirective (site : CallSite) (directive : String) (tag : String) (position : Position)
  /-- A visitor failed, on the node with the given tag or else on the top-level sequence. -/
  | visitorFailed (site : CallSite) (tag : Option String) (cause : Cause WalkError)
  /-- A node stands at a greater depth than the limit. -/
  | tooDeep (limit : Nat) (tag : String)
deriving Repr

def ShapeMismatch.text (mismatch : ShapeMismatch) : String :=
  "`" ++ mismatch.tag ++ "` node cannot be stored in slot `" ++ mismatch.slot ++ "`"

/-- The words with which an error introduces the visitor. -/
def CallSite.visitorText (site : CallSite) : String :=
  site.visitor ++ " (visitor #" ++ site.index.repr ++ ")"

namespace WalkError

instance : Inhabited WalkError where
  default := .tooDeep 0 ""

mutual

def text : WalkError → String
  | .illegalDirective site directive tag position =>
    site.visitorText ++ " returned `" ++ directive ++ "` from " ++ site.hook.name ++ " on `" ++
      tag ++ "`, which is not allowed for a " ++ position.text ++ " node"
  | .visitorFailed site tag cause =>
    site.visitorText ++ " failed in " ++ site.hook.name ++ " on " ++
      tag.getD "the top-level sequence" ++ ": " ++ causeText cause
  | .tooDeep limit tag =>
    "traversal exceeded the maximum depth of " ++ limit.repr ++ " at `" ++ tag ++ "`"

def causeText : Cause WalkError → String
  | .message text => text
  | .shape mismatch => mismatch.text
  | .unavailable => "RefCell already borrowed"
  | .traversal error => text error

end

/-- The cause given by a visitor that failed. -/
def visitorCause : WalkError → Option (Cause WalkError)
  | .visitorFailed _ _ cause => some cause
  | _ => none

/-- Parts a failure of a visitor from its cause; any other error comes back unchanged. -/
def takeVisitorCause : WalkError → Except WalkError (Cause WalkError)
  | .visitorFailed _ _ cause => .ok cause
  | error => .error error

/-- The causes behind an error, from the nearest to the innermost. -/
def causes : WalkError → List (Cause WalkError)
  | .visitorFailed _ _ (.traversal error) => .traversal error :: error.causes
  | .visitorFailed _ _ cause => [cause]
  | _ => []

/-- The hook that was being called. -/
def hook : WalkError → Option Hook
  | .illegalDirective site _ _ _ => some site.hook
  | .visitorFailed site _ _ => some site.hook
  | .tooDeep _ _ => none

def site : WalkError → Option CallSite
  | .illegalDirective site _ _ _ => some site
  | .visitorFailed site _ _ => some site
  | .tooDeep _ _ => none

/-- The tag of the node in hand. -/
def tag : WalkError → Option String
  | .illegalDirective _ _ tag _ => some tag
  | .visitorFailed _ tag _ => tag
  | .tooDeep _ tag => some tag

end WalkError

def Cause.text (cause : Cause WalkError) : String :=
  WalkError.causeText cause

end ForestWalk
