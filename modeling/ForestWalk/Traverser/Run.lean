import ForestWalk.Roster.Basic
import ForestWalk.Traverser.Basic
import ForestWalk.Visitor.Behaviour
import ForestWalk.Walk.Traverse
/-!
Running a traverser against a roster. A visitor is taken off the roster for the length of a call,
so it cannot be called again before the call has ended, and traversals that are started by hooks
nest no deeper than there are visitors.
-/

namespace ForestWalk

/-- How a traversal of a sequence runs. -/
abbrev Traversal (ρ α V : Type) :=
  Traverser → List (Tree ρ α) → Roster ρ α V → Sweep (Tree ρ α) (Roster ρ α V)

/-- The sequence or the failure a traversal ends with; none if the stack was too small. -/
def Sweep.result {τ σ : Type} (sweep : Sweep τ σ) : Option (Except WalkError (List τ)) :=
  match sweep.halt with
  | none | some .stopped => some (.ok sweep.items)
  | some (.failed error) => some (.error error)
  | some .overflowed => none

namespace Routine

variable {ρ α β V : Type}

/-- Carries out a routine of a visitor's hook, given how traversals run. -/
def perform (nested : Traversal ρ α V) (visitor : Nat) :
    Routine ρ α β → Roster ρ α V → Option β × Roster ρ α V
  | .finish answer, roster => (some answer, roster)
  | .hold target mode next, roster =>
    let (granted, roster) := roster.hold target mode
    (next granted).perform nested visitor (roster.note (.hold visitor target granted))
  | .release target next, roster =>
    let (count, roster) := roster.release target
    (next count).perform nested visitor (roster.note (.release visitor target count))
  | .traverse traverser nodes next, roster =>
    let sweep := nested traverser nodes roster
    match sweep.result with
    | some result =>
      (next result).perform nested visitor (sweep.state.note (.nested visitor result))
    | none => (none, sweep.state)

end Routine

namespace Roster

variable {ρ α V : Type}

/-- Calls a visitor with a node, given how the traversals that it starts run. -/
def callNode (behaviour : Behaviour ρ α V) (nested : Traversal ρ α V) (visitor : Nat)
    (hook : NodeHook) (node : Tree ρ α) (roster : Roster ρ α V) :
    NodeReply ρ α × Roster ρ α V :=
  match roster.takeForCall visitor with
  | none => (.unavailable, roster)
  | some (state, roster) =>
    match (behaviour.node hook state node).perform nested visitor
        (roster.note (.nodeCall visitor hook node)) with
    | (none, roster) => (.overflowed, roster)
    | (some result, roster) =>
      (match result.answer with
        | .ok directive => .answered result.node directive
        | .error cause => .failed result.node cause,
        roster.putBack visitor result.state)

/-- Calls a visitor with the top-level sequence, given how the traversals that it starts run. -/
def callSequence (behaviour : Behaviour ρ α V) (nested : Traversal ρ α V) (visitor : Nat)
    (hook : SequenceHook) (nodes : List (Tree ρ α)) (roster : Roster ρ α V) :
    SequenceReply ρ α × Roster ρ α V :=
  match roster.takeForCall visitor with
  | none => (.unavailable, roster)
  | some (state, roster) =>
    match (behaviour.sequence hook state nodes).perform nested visitor
        (roster.note (.sequenceCall visitor hook nodes)) with
    | (none, roster) => (.overflowed, roster)
    | (some result, roster) =>
      (match result.answer with
        | .ok replacement => .answered replacement
        | .error cause => .failed cause,
        roster.putBack visitor result.state)

/-- The name of a visitor, where a reader may ask for it. -/
def name (behaviour : Behaviour ρ α V) (visitor : Nat) (roster : Roster ρ α V) :
    Option String :=
  (roster.read visitor).map behaviour.name

end Roster

namespace Traverser

variable {ρ α V : Type}

/-- A visitor of the roster, as a traversal sees it. -/
def registration (behaviour : Behaviour ρ α V) (nested : Traversal ρ α V) (visitor : Nat) :
    Registration ρ α (Roster ρ α V) where
  callNode := fun hook node roster => roster.callNode behaviour nested visitor hook node
  callSequence := fun hook nodes roster => roster.callSequence behaviour nested visitor hook nodes
  name := fun roster => roster.name behaviour visitor

/-- The traverser at work on a roster, given how the traversals that its visitors start run. -/
def walker (behaviour : Behaviour ρ α V) (nested : Traversal ρ α V) (traverser : Traverser) :
    Walker ρ α (Roster ρ α V) where
  visitors := traverser.visitors.map (registration behaviour nested)
  options := traverser.options
  emit := fun event roster => roster.note (.event event)

variable [Admission ρ α]

/-- Runs a traversal, with traversals nesting at most so many deep. -/
def nest (behaviour : Behaviour ρ α V) (stack : Nat) : Nat → Traversal ρ α V
  | 0, _, nodes, roster => ⟨nodes, some .overflowed, roster⟩
  | nesting + 1, traverser, nodes, roster =>
    (traverser.walker behaviour (nest behaviour stack nesting)).traverse stack nodes roster

/-- Traversals one more than there are visitors can be under way at the same time: each but the
innermost waits for a hook, and no two of these hooks are of the same visitor. -/
def nestings (roster : Roster ρ α V) : Nat :=
  roster.cells.length + 1

/-- Traverses a sequence in place: what comes back holds every change that was made, and the
reason if the traversal failed. -/
def traverseInPlace (behaviour : Behaviour ρ α V) (stack : Nat) : Traversal ρ α V :=
  fun traverser nodes roster => nest behaviour stack (nestings roster) traverser nodes roster

/-- Traverses a sequence and returns what has become of it, or else the failure alone. -/
def traverse (behaviour : Behaviour ρ α V) (stack : Nat) (traverser : Traverser)
    (nodes : List (Tree ρ α)) (roster : Roster ρ α V) :
    Option (Except WalkError (List (Tree ρ α))) × Roster ρ α V :=
  let sweep := traverser.traverseInPlace behaviour stack nodes roster
  (sweep.result, sweep.state)

end Traverser

end ForestWalk
