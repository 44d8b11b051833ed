/-!
Where a node stands: in the top-level sequence, in a list slot or in a single slot. Only a
sequence has room for several nodes in the place of one.
-/

namespace ForestWalk

inductive Position where
  | topLevel
  | list
  | single
deriving Repr, DecidableEq

namespace Position

/-- Whether any number of nodes may take the place of a node standing here. -/
def allowsSplice : Position → Bool
  | .topLevel => true
  | .list => true
  | .single => false

/-- The wording in texts. -/
def text : Position → String
  | .topLevel => "top-level"
  | .list => "list"
  | .single => "single-child"

/-- The word that stands for a position in data. -/
def code : Position → String
  | .topLevel => "top_level"
  | .list => "list"
  | .single => "single"

end Position

end ForestWalk
