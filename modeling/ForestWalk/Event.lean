import ForestWalk.Hook
import ForestWalk.Position
/-!
What a traversal makes known while it runs: where it starts and ends, every change it makes to the
forest, and the failures it finds itself. A failure that a visitor reports is no event.
-/

namespace ForestWalk

inductive Event where
  | started (nodes visitors : Nat)
  | sequenceReplaced (hook : SequenceHook) (visitor oldLength newLength : Nat)
  | tooDeep (limit : Nat) (tag : String)
  | nodeReplaced (hook : NodeHook) (old new : String)
  | removed (slot : String) (index : Nat)
  | spliced (slot : String) (index count : Nat)
  | cleared (slot : String)
  | illegalDirective (directive : String) (hook : NodeHook) (position : Position) (tag : String)
  | unavailable (visitor : Nat) (hook : Hook)
  | stopped
  | finished (nodes : Nat)
deriving Repr, DecidableEq

/-- How much attention an event deserves. -/
inductive Level where
  | trace
  | debug
  | warn
deriving Repr, DecidableEq

def Level.name : Level → String
  | .trace => "TRACE"
  | .debug => "DEBUG"
  | .warn => "WARN"

/-- The value of a field of an event. -/
inductive FieldValue where
  | number (n : Nat)
  | text (s : String)
deriving Repr, DecidableEq

namespace Event

def level : Event → Level
  | .started .. | .stopped | .finished .. => .debug
  | .sequenceReplaced .. | .nodeReplaced .. | .removed .. | .spliced .. | .cleared .. => .trace
  | .tooDeep .. | .illegalDirective .. | .unavailable .. => .warn

def message : Event → String
  | .started .. => "starting traversal"
  | .sequenceReplaced .. => "replaced top-level sequence"
  | .tooDeep .. => "depth limit exceeded"
  | .nodeReplaced .enter _ _ => "replaced node on enter"
  | .nodeReplaced .leave _ _ => "replaced node on leave"
  | .removed .. => "removed node"
  | .spliced .. => "spliced nodes"
  | .cleared .. => "cleared single-child slot"
  | .illegalDirective .. => "invalid edit directive"
  | .unavailable .. => "visitor already borrowed"
  | .stopped => "traversal stopped by visitor"
  | .finished .. => "finished traversal"

/-- The named values that go with the message. -/
def fields : Event → List (String × FieldValue)
  | .started nodes visitors => [("nodes", .number nodes), ("visitors", .number visitors)]
  | .sequenceReplaced hook visitor oldLength newLength =>
    [("hook", .text (Hook.sequence hook).name), ("visitor", .number visitor),
      ("old_len", .number oldLength), ("new_len", .number newLength)]
  | .tooDeep limit tag => [("limit", .number limit), ("node_type", .text tag)]
  | .nodeReplaced _ old new => [("from", .text old), ("to", .text new)]
  | .removed slot index => [("slot", .text slot), ("index", .number index)]
  | .spliced slot index count =>
    [("slot", .text slot), ("index", .number index), ("count", .number count)]
  | .cleared slot => [("slot", .text slot)]
  | .illegalDirective directive hook position tag =>
    [("directive", .text directive), ("hook", .text (Hook.node hook).name),
      ("position", .text position.text), ("node_type", .text tag)]
  | .unavailable visitor hook => [("visitor", .number visitor), ("hook", .text hook.name)]
  | .stopped => []
  | .finished nodes => [("nodes", .number nodes)]

end Event

end ForestWalk
