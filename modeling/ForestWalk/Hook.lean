/-!
The four occasions on which a visitor is called: when a traversal starts and ends it is shown the
whole sequence, and it is shown a node when the walk enters and leaves it.
-/

namespace ForestWalk

/-- The occasions on which a visitor is shown one node. -/
inductive NodeHook where
  | enter
  | leave
deriving Repr, DecidableEq

/-- The occasions on which a visitor is shown the top-level sequence. -/
inductive SequenceHook where
  | before
  | after
deriving Repr, DecidableEq

inductive Hook where
  | node (hook : NodeHook)
  | sequence (hook : SequenceHook)
deriving Repr, DecidableEq

/-- The name of a hook, in texts and in data alike. -/
def Hook.name : Hook → String
  | .sequence .before => "before_traverse"
  | .node .enter => "enter_node"
  | .node .leave => "leave_node"
  | .sequence .after => "after_traverse"

end ForestWalk
