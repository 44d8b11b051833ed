import ForestWalk.Directive
import ForestWalk.Error.Basic
import ForestWalk.Event
import ForestWalk.Tree.Basic
/-!
What a traversal knows of its visitors: that each can be called with a node or with the top-level
sequence, and that it may have a name. All else, the visitors' own memory included, is hidden in a
state of type `σ` that is handed from call to call.
-/

namespace ForestWalk

/-- What comes back from calling a visitor with a node. The node is returned as the visitor left
it. -/
inductive NodeReply (ρ α : Type) where
  /-- The visitor could not be called. -/
  | unavailable
  | answered (node : Tree ρ α) (directive : Directive (Tree ρ α))
  | failed (node : Tree ρ α) (cause : Cause WalkError)
  /-- A traversal inside the call nested too deeply for the stack. -/
  | overflowed

/-- What comes back from calling a visitor with the top-level sequence: another sequence, if it
wants to have it replaced. -/
inductive SequenceReply (ρ α : Type) where
  /-- The visitor could not be called. -/
  | unavailable
  | answered (replacement : Option (List (Tree ρ α)))
  | failed (cause : Cause WalkError)
  /-- A traversal inside the call nested too deeply for the stack. -/
  | overflowed

/-- A visitor on the list of a traversal. -/
structure Registration (ρ α σ : Type) where
  callNode : NodeHook → Tree ρ α → σ → NodeReply ρ α × σ
  callSequence : SequenceHook → List (Tree ρ α) → σ → SequenceReply ρ α × σ
  /-- The name, which cannot be asked of a visitor that somebody else may be changing. -/
  name : σ → Option String

/-- What stands for the name of a visitor that cannot be asked. -/
def namelessVisitor (index : Nat) : String :=
  "<visitor #" ++ index.repr ++ ", name unavailable while mutably borrowed>"

/-- Describes a call of the visitor at the given place of the list. -/
def Registration.site {ρ α σ : Type} (visitor : Registration ρ α σ) (hook : Hook) (index : Nat)
    (state : σ) : CallSite where
  hook := hook
  index := index
  visitor := (visitor.name state).getD (namelessVisitor index)

/-- Why a walk was broken off. -/
inductive Halt where
  /-- A visitor asked for it. -/
  | stopped
  | failed (error : WalkError)
  /-- The tree is too deep for the stack. -/
  | overflowed

end ForestWalk
