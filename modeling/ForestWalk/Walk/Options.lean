import ForestWalk.Tree.Shape
/-!
The options of a traversal: how deep it may go, and whether the nodes a visitor brings along have
to fit the slot they go into.
-/

namespace ForestWalk

structure Options where
  /-- The greatest depth a node may have, the top level being at depth 0. -/
  maxDepth : Option Nat := none
  checkShapes : Bool := true
deriving Repr, DecidableEq

namespace Options

/-- Whether a node at this depth is beyond the limit, and then the limit. -/
def exceededAt (options : Options) (depth : Nat) : Option Nat :=
  options.maxDepth.filter (· < depth)

/-- The first of the nodes that the rule of a slot refuses, if rules are to be observed. -/
def firstRefused {ρ α : Type} [Admission ρ α] (options : Options) (rule : Rule ρ)
    (nodes : List (Tree ρ α)) : Option (Tree ρ α) :=
  if options.checkShapes then nodes.find? fun node => !rule.accepts node else none

end Options

end ForestWalk
