import ForestWalk.Hook
import ForestWalk.Position
/-!
What a visitor may ask for when it is shown a node, and where each request is legal: splicing and
skipping belong to one hook each, and a splice needs a sequence to go into.
-/

namespace ForestWalk

/-- The answer of a visitor that was shown a node. -/
inductive Directive (τ : Type) where
  /-- Leave the node where it stands. -/
  | keep
  /-- Put another node in its place. -/
  | replace (node : τ)
  /-- Take the node out. -/
  | remove
  /-- Put any number of nodes in its place. -/
  | splice (nodes : List τ)
  /-- Do not walk the children. -/
  | skipChildren
  /-- Walk no further at all. -/
  | stop
deriving Repr, DecidableEq

namespace Directive

variable {τ υ : Type}

instance : Inhabited (Directive τ) where
  default := .keep

def name : Directive τ → String
  | .keep => "keep"
  | .replace _ => "replace"
  | .remove => "remove"
  | .splice _ => "splice"
  | .skipChildren => "skip_children"
  | .stop => "stop"

def isKeep : Directive τ → Bool
  | .keep => true
  | _ => false

/-- Whether the directive changes the tree. -/
def isEdit : Directive τ → Bool
  | .replace _ | .remove | .splice _ => true
  | .keep | .skipChildren | .stop => false

/-- The nodes that a directive brings along, in order. -/
def carried : Directive τ → List τ
  | .replace node => [node]
  | .splice nodes => nodes
  | _ => []

/-- Whether a directive is legal as the answer to a hook, for a node at the given position. -/
def legal : Directive τ → NodeHook → Position → Bool
  | .splice _, .enter, _ => false
  | .splice _, .leave, position => position.allowsSplice
  | .skipChildren, hook, _ => hook == .enter
  | .keep, _, _ | .replace _, _, _ | .remove, _, _ | .stop, _, _ => true

/-- Applies an effectful function to the nodes brought along, in order. -/
def mapM {m : Type → Type} [Monad m] (f : τ → m υ) : Directive τ → m (Directive υ)
  | .keep => pure .keep
  | .replace node => do return .replace (← f node)
  | .remove => pure .remove
  | .splice nodes => do return .splice (← nodes.mapM f)
  | .skipChildren => pure .skipChildren
  | .stop => pure .stop

end Directive

end ForestWalk
