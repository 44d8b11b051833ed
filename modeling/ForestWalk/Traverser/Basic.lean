import ForestWalk.Walk.Options
/-!
A traverser: the list of its visitors, in the order in which they are called, and its options. A
visitor may be on the list several times.
-/

namespace ForestWalk

structure Traverser where
  /-- The numbers of the visitors. -/
  visitors : List Nat := []
  options : Options := {}
deriving Repr, DecidableEq

namespace Traverser

instance : Inhabited Traverser where
  default := {}

/-- Puts a visitor at the end of the list. -/
def add (visitor : Nat) (traverser : Traverser) : Traverser :=
  { traverser with visitors := traverser.visitors ++ [visitor] }

/-- Takes a visitor off the list, where it stands first. -/
def remove (visitor : Nat) (traverser : Traverser) : Traverser :=
  { traverser with visitors := traverser.visitors.erase visitor }

/-- How many visitors are called for each node. -/
def count (traverser : Traverser) : Nat :=
  traverser.visitors.length

end Traverser

end ForestWalk
