import ForestWalk.Directive
import ForestWalk.Visitor.Routine
/-!
What visitors do when they are called. A behaviour says it for all visitors of one type `V`; of
the four hooks those that are left out do nothing. `Behaviour.sum` joins the behaviours of two
types.
-/

namespace ForestWalk

/-- What a hook that was shown a node ends with: the state of the visitor, the node as the hook
left it, and the answer. -/
structure NodeResult (ρ α V : Type) where
  state : V
  node : Tree ρ α
  answer : Except (Cause WalkError) (Directive (Tree ρ α)) := .ok .keep

/-- What a hook that was shown the top-level sequence ends with: the state of the visitor, and the
sequence that is to take its place. -/
structure SequenceResult (ρ α V : Type) where
  state : V
  answer : Except (Cause WalkError) (Option (List (Tree ρ α))) := .ok none

structure Behaviour (ρ α V : Type) where
  name : V → String
  node : NodeHook → V → Tree ρ α → Routine ρ α (NodeResult ρ α V) :=
    fun _ state node => .finish { state := state, node := node }
  sequence : SequenceHook → V → List (Tree ρ α) → Routine ρ α (SequenceResult ρ α V) :=
    fun _ state _ => .finish { state := state }

variable {ρ α V W : Type}

def NodeResult.mapState (f : V → W) (result : NodeResult ρ α V) : NodeResult ρ α W :=
  { state := f result.state, node := result.node, answer := result.answer }

def SequenceResult.mapState (f : V → W) (result : SequenceResult ρ α V) :
    SequenceResult ρ α W :=
  { state := f result.state, answer := result.answer }

/-- Visitors of two types, each behaving as its type does. -/
def Behaviour.sum (left : Behaviour ρ α V) (right : Behaviour ρ α W) :
    Behaviour ρ α (V ⊕ W) where
  name := fun
    | .inl state => left.name state
    | .inr state => right.name state
  node := fun hook visitor node =>
    match visitor with
    | .inl state => (left.node hook state node).map (NodeResult.mapState .inl)
    | .inr state => (right.node hook state node).map (NodeResult.mapState .inr)
  sequence := fun hook visitor nodes =>
    match visitor with
    | .inl state => (left.sequence hook state nodes).map (SequenceResult.mapState .inl)
    | .inr state => (right.sequence hook state nodes).map (SequenceResult.mapState .inr)

end ForestWalk
