import ForestWalk.Error.Basic
import ForestWalk.Roster.Lease
import ForestWalk.Traverser.Basic
/-!
What a hook does before it answers. Apart from computing it may borrow visitors, give back what is
kept of them, and start traversals. A routine is a tree of such steps, in which each step is told
what came of it.
-/

namespace ForestWalk

inductive Routine (ρ α β : Type) where
  | finish (answer : β)
  /-- Tries to borrow a visitor and keep it. -/
  | hold (visitor : Nat) (mode : Mode) (next : Bool → Routine ρ α β)
  /-- Gives back all that is kept of a visitor. -/
  | release (visitor : Nat) (next : Nat → Routine ρ α β)
  /-- Traverses a sequence. -/
  | traverse (traverser : Traverser) (nodes : List (Tree ρ α))
      (next : Except WalkError (List (Tree ρ α)) → Routine ρ α β)

namespace Routine

variable {ρ α β γ : Type}

def bind : Routine ρ α β → (β → Routine ρ α γ) → Routine ρ α γ
  | .finish answer, f => f answer
  | .hold visitor mode next, f => .hold visitor mode fun granted => (next granted).bind f
  | .release visitor next, f => .release visitor fun count => (next count).bind f
  | .traverse traverser nodes next, f =>
    .traverse traverser nodes fun result => (next result).bind f

instance : Monad (Routine ρ α) where
  pure := .finish
  bind := bind

def map (f : β → γ) (routine : Routine ρ α β) : Routine ρ α γ :=
  routine.bind fun answer => .finish (f answer)

end Routine

end ForestWalk
